import Mathlib.Data.List.Basic

/-!
# TCP requests

`TcpHandler`: a connection is made for the request, the payload is written, and `read_tcp` reads as
the options say.  Timings are left out, and so are the URL and the payload.

With `read_bytes` the loop stops as soon as enough has been received, and it takes the end of the
stream for success.
-/

namespace Loadr.Tcp

open List

structure SocketRequest where
  readBytes : Option ℕ := none
  readUntilClose : Bool := false
  readTimeout : String := ""

inductive ReadMode
  | exact (n : ℕ)
  | untilClose
  | single

namespace ReadMode

def fromOptions (opts : SocketRequest) : ReadMode :=
  match opts.readBytes with
  | some n => exact n
  | none => if opts.readUntilClose then untilClose else single

def done (received : List UInt8) : ReadMode → Bool
  | exact n => n ≤ received.length
  | untilClose => false
  | single => !received.isEmpty

end ReadMode

inductive Ending
  | closed
  | failed (e : String)
  | silent

def Ending.error (timeout : String) : Ending → Option String
  | closed => none
  | failed e => some ("read failed: " ++ e)
  | silent => some ("read timed out after " ++ timeout)

/-- The loop, with the bytes that each read gives. -/
def readTcp (mode : ReadMode) (timeout : String) (ending : Ending) (received : List UInt8) :
    List (List UInt8) → List UInt8 × Option String
  | [] => (received, if mode.done received then none else ending.error timeout)
  | chunk :: chunks =>
    if mode.done received then (received, none)
    else readTcp mode timeout ending (received ++ chunk) chunks

/-- How the network cuts what the peer sends.  A read that gives nothing is the end. -/
structure Segments where
  chunks : List (List UInt8)
  nonempty : [] ∉ chunks
  ending : Ending

inductive Connection
  | broken (message : String)
  | connected (segments : Segments)
  | expired (timeout : String)

structure ProtocolResponse where
  body : List UInt8 := []
  bytesReceived : ℕ := 0
  error : Option String := none

def socketResponse (body : List UInt8) (error : Option String) : ProtocolResponse :=
  { body, bytesReceived := body.length, error }

def execute (opts : SocketRequest) : Connection → ProtocolResponse
  | .broken message => socketResponse [] (some message)
  | .connected s =>
    let result := readTcp (.fromOptions opts) opts.readTimeout s.ending [] s.chunks
    socketResponse result.1 result.2
  | .expired timeout => { error := some ("request timed out after " ++ timeout) }

/-! ## Exact reads -/

def Connection.stream : Connection → List UInt8
  | .connected s => s.chunks.flatten
  | _ => []

/-- The first `n` bytes of the stream or an error, and never more than `n` bytes. -/
structure ReadExact (n : ℕ) (sent : List UInt8) (response : ProtocolResponse) : Prop where
  exact : response.error = none → n ≤ sent.length ∧ response.body = sent.take n
  noMore : response.body.length ≤ n ∧ response.bytesReceived ≤ n

/-- Where in the stream the reads end, the first of which begins at `start`. -/
def ends (start : ℕ) (chunks : List (List UInt8)) : List ℕ :=
  chunks.scanl (fun pos chunk => pos + chunk.length) start

/-- A read ends with the `n`-th byte, or the connection fails before it. -/
def Connection.Fits (n : ℕ) : Connection → Prop
  | .connected s => n ∈ ends 0 s.chunks ∨ s.chunks.flatten.length < n ∧ s.ending ≠ .closed
  | _ => True

variable {n : ℕ} {received : List UInt8} (timeout : String) (ending : Ending)

theorem le_of_mem_ends {start : ℕ} {chunks : List (List UInt8)} (h : n ∈ ends start chunks) :
    start ≤ n := by
  induction chunks generalizing start with
  | nil => exact Nat.le_of_eq (mem_singleton.1 h).symm
  | cons chunk chunks ih =>
    rw [ends, scanl_cons, mem_cons] at h
    rcases h with rfl | h
    · exact Nat.le_refl _
    · have := ih h
      omega

theorem prefix_stream (mode : ReadMode) (chunks : List (List UInt8)) :
    (readTcp mode timeout ending received chunks).1 <+: received ++ chunks.flatten := by
  induction chunks generalizing received with
  | nil => exact prefix_append _ _
  | cons chunk chunks ih =>
    rw [readTcp]
    split_ifs with hdone
    · exact prefix_append _ _
    · rw [flatten_cons, ← append_assoc]
      exact ih

theorem readTcp_iff (chunks : List (List UInt8)) {result : List UInt8 × Option String}
    (h : readTcp (.exact n) timeout ending received chunks = result) :
    (result.1.length ≤ n ∧ (result.2 = none → n ≤ result.1.length)) ↔
      n ∈ ends received.length chunks ∨
        received.length + chunks.flatten.length < n ∧ ending ≠ .closed := by
  induction chunks generalizing received with
  | nil =>
    subst h
    simp only [readTcp, ReadMode.done, ends, scanl_nil, mem_singleton,
      flatten_nil, length_nil, decide_eq_true_eq]
    cases ending <;> simp [Ending.error] <;> omega
  | cons chunk chunks ih =>
    rw [ends, scanl_cons, mem_cons, flatten_cons, length_append]
    by_cases hdone : n ≤ received.length
    · have hstop : (ReadMode.exact n).done received = true := decide_eq_true hdone
      rw [readTcp, if_pos hstop] at h
      have hends : n ∈ ends (received.length + chunk.length) chunks → n = received.length := by
        intro hmem
        have := le_of_mem_ends hmem
        omega
      subst h
      constructor
      · intro hlen
        exact .inl (.inl (Nat.le_antisymm hdone hlen.1))
      · rintro ((hn | hn) | ⟨hlt, -⟩)
        · exact ⟨Nat.le_of_eq hn.symm, fun _ => hdone⟩
        · exact ⟨Nat.le_of_eq (hends hn).symm, fun _ => hdone⟩
        · omega
    · have hgo : ¬ (ReadMode.exact n).done received = true := by simpa [ReadMode.done] using hdone
      have hne : n ≠ received.length := by omega
      rw [readTcp, if_neg hgo] at h
      rw [ih h, length_append, Nat.add_assoc, ← ends]
      simp only [hne, false_or]

/-- The body is exact as long as a read ends with the last byte asked for. -/
theorem readExact_iff (opts : SocketRequest) (n : ℕ) (hn : opts.readBytes = some n)
    (connection : Connection) :
    ReadExact n connection.stream (execute opts connection) ↔ connection.Fits n := by
  cases connection with
  | broken | expired =>
    refine iff_of_true ⟨fun h => ?_, Nat.zero_le n, Nat.zero_le n⟩ trivial
    cases h
  | connected s =>
    have hmode : ReadMode.fromOptions opts = .exact n := by rw [ReadMode.fromOptions, hn]
    have hprefix := @prefix_stream [] opts.readTimeout s.ending (.exact n) s.chunks
    have hfits := @readTcp_iff n [] opts.readTimeout s.ending s.chunks _ rfl
    rw [length_nil, Nat.zero_add] at hfits
    rw [Connection.Fits, ← hfits, execute, hmode]
    constructor
    · intro h
      refine ⟨h.noMore.1, fun hnone => ?_⟩
      obtain ⟨hlen, hbody⟩ := h.exact hnone
      have htake := congrArg List.length hbody
      rw [length_take, Nat.min_eq_left hlen] at htake
      exact Nat.le_of_eq htake.symm
    · intro h
      refine ⟨fun hnone => ?_, h.1, h.1⟩
      have hlen : _ = n := Nat.le_antisymm h.1 (h.2 hnone)
      refine ⟨?_, ?_⟩
      · exact Nat.le_trans (h.2 hnone) hprefix.length_le
      · rw [prefix_iff_eq_take, hlen] at hprefix
        exact hprefix

theorem readExact_two_reads :
    ReadExact 3 [1, 2, 3] (execute { readBytes := some 3 }
      (.connected ⟨[[1], [2, 3]], by decide, .silent⟩)) :=
  (readExact_iff { readBytes := some 3 } 3 rfl
    (.connected ⟨[[1], [2, 3]], by decide, .silent⟩)).2 (.inl (by decide))

/-- The peer closes after one byte of three, or sends four at once. -/
theorem inexact_reads :
    ¬ ReadExact 3 [1] (execute { readBytes := some 3 } (.connected ⟨[[1]], by decide, .closed⟩)) ∧
      ¬ ReadExact 3 [1, 2, 3, 4] (execute { readBytes := some 3 }
        (.connected ⟨[[1, 2, 3, 4]], by decide, .silent⟩)) := by
  refine ⟨fun h => ?_, fun h => ?_⟩
  · exact absurd (h.exact rfl).1 (by decide)
  · exact absurd h.noMore.1 (by decide)

end Loadr.Tcp
