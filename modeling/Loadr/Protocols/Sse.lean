import Mathlib.Data.List.Basic

/-!
# The stream of server-sent events

`SseParser` keeps the bytes after the last complete line and the fields of the event that is being
built.  A line is taken from the front of the buffer, so it does not matter what is behind it:
pushing two chunks is pushing them joined (`push_append`).
-/

namespace Loadr.Protocols

open List

structure SseEvent where
  eventType : String
  data : String
  id : Option String
deriving DecidableEq

structure SseParser where
  /-- Bytes that are no complete line yet. -/
  buffer : List UInt8 := []
  eventType : Option String := none
  data : List String := []
  id : Option String := none
  haveFields : Bool := false
deriving DecidableEq

namespace SseParser

def dispatch (p : SseParser) : Option SseEvent × SseParser :=
  if p.haveFields then
    (some ⟨p.eventType.getD "message", "\n".intercalate p.data, p.id⟩,
      { p with eventType := none, data := [], id := none, haveFields := false })
  else (none, p)

/-- The field and the value of a line; one space after the colon is not part of the value. -/
def splitField (line : List Char) : String × String :=
  match line.span (· ≠ ':') with
  | (_, []) => (.ofList line, "")
  | (field, _ :: ' ' :: value) => (.ofList field, .ofList value)
  | (field, _ :: value) => (.ofList field, .ofList value)

def feedLine (p : SseParser) (line : String) : Option SseEvent × SseParser :=
  match line.toList with
  | [] => p.dispatch
  | ':' :: _ => (none, p)
  | chars =>
    let p := { p with haveFields := true }
    let (field, value) := splitField chars
    (none, match field with
      | "event" => { p with eventType := some value }
      | "data" => { p with data := p.data ++ [value] }
      | "id" => { p with id := some value }
      | _ => p)

/-- The end of a line may be two bytes. -/
def stripReturn (line : List UInt8) : List UInt8 :=
  if line.getLast? = some 13 then line.dropLast else line

def setBuffer (p : SseParser) (buffer : List UInt8) : SseParser := { p with buffer }

theorem feedLine_setBuffer (p : SseParser) (b : List UInt8) (line : String) :
    (p.setBuffer b).feedLine line = ((p.feedLine line).1, (p.feedLine line).2.setBuffer b) := by
  unfold feedLine
  split
  · cases h : p.haveFields <;> simp [dispatch, setBuffer, h]
  · rfl
  · dsimp only
    split <;> rfl

variable (lossy : List UInt8 → String)

/-- Take the complete lines of the bytes, of which `line` is the beginning of the first; `lossy` is
`String::from_utf8_lossy`. -/
def drain (p : SseParser) (line : List UInt8) : List UInt8 → List SseEvent × SseParser
  | [] => ([], p.setBuffer line)
  | b :: bytes =>
    if b = 10 then
      let (event, q) := p.feedLine (lossy (stripReturn line))
      let (events, r) := q.drain [] bytes
      (event.toList ++ events, r)
    else p.drain (line ++ [b]) bytes

def push (p : SseParser) (chunk : List UInt8) : List SseEvent × SseParser :=
  p.drain lossy [] (p.buffer ++ chunk)

def feed (p : SseParser) : List (List UInt8) → List SseEvent × SseParser
  | [] => ([], p)
  | chunk :: chunks =>
    let (events, q) := p.push lossy chunk
    let (more, r) := q.feed chunks
    (events ++ more, r)

variable {lossy} {p : SseParser} {line : List UInt8}

theorem drain_setBuffer (b bytes : List UInt8) :
    (p.setBuffer b).drain lossy line bytes = p.drain lossy line bytes := by
  induction bytes generalizing p line with
  | nil => rfl
  | cons c bytes ih => simp only [drain, feedLine_setBuffer, ih]

theorem drain_line (hline : 10 ∉ line) (start bytes : List UInt8) :
    p.drain lossy start (line ++ bytes) = p.drain lossy (start ++ line) bytes := by
  induction line generalizing start with
  | nil => rw [append_nil, nil_append]
  | cons c line ih =>
    obtain ⟨hc, hline⟩ := not_or.1 (mt mem_cons.2 hline)
    rw [cons_append, drain, if_neg (Ne.symm hc), ih hline, append_assoc]
    rfl

theorem drain_append (hline : 10 ∉ line) (a b : List UInt8) :
    p.drain lossy line (a ++ b) =
      ((p.drain lossy line a).1 ++ ((p.drain lossy line a).2.push lossy b).1,
        ((p.drain lossy line a).2.push lossy b).2) := by
  induction a generalizing p line with
  | nil =>
    have hrest : (p.setBuffer line).push lossy b = p.drain lossy line b :=
      (drain_line hline [] b).trans (drain_setBuffer line b)
    rw [drain, hrest]
    rfl
  | cons c a ih =>
    rw [cons_append, drain, drain]
    split_ifs with hc
    · simp only [ih not_mem_nil, append_assoc]
    · refine ih ?_
      simpa using ⟨hline, Ne.symm hc⟩

theorem push_append (a b : List UInt8) :
    p.push lossy (a ++ b) = ((p.push lossy a).1 ++ ((p.push lossy a).2.push lossy b).1,
      ((p.push lossy a).2.push lossy b).2) := by
  rw [push, ← append_assoc]
  exact drain_append not_mem_nil _ b

theorem feed_cons (chunk : List UInt8) (chunks : List (List UInt8)) :
    p.feed lossy (chunk :: chunks) = p.push lossy (chunk ++ chunks.flatten) := by
  induction chunks generalizing p chunk with
  | nil =>
    show ((p.push lossy chunk).1 ++ [], (p.push lossy chunk).2) = _
    rw [flatten_nil, append_nil, append_nil]
  | cons next chunks ih =>
    show ((p.push lossy chunk).1 ++ ((p.push lossy chunk).2.feed lossy (next :: chunks)).1,
      ((p.push lossy chunk).2.feed lossy (next :: chunks)).2) = _
    rw [ih, flatten_cons, ← push_append]

/-- The events of a stream, and what the parser is left with, do not depend on how it is cut. -/
theorem feed_eq_of_flatten_eq {chunks chunks' : List (List UInt8)}
    (h : chunks.flatten = chunks'.flatten) :
    ({} : SseParser).feed lossy chunks = ({} : SseParser).feed lossy chunks' := by
  have hpush (chunks : List (List UInt8)) :
      ({} : SseParser).feed lossy chunks = ({} : SseParser).push lossy chunks.flatten := by
    cases chunks with
    | nil => rfl
    | cons chunk chunks => exact feed_cons chunk chunks
  rw [hpush, hpush, h]

theorem feed_eq_of_cut :
    ({} : SseParser).feed (fun bytes => .ofList (bytes.map fun b => .ofNat b.toNat))
        [[100, 97], [116, 97, 58, 120, 13], [10, 10]] =
      ({} : SseParser).feed (fun bytes => .ofList (bytes.map fun b => .ofNat b.toNat))
        [[100, 97, 116, 97, 58, 120, 13, 10, 10]] :=
  feed_eq_of_flatten_eq (by decide)

end SseParser

end Loadr.Protocols
