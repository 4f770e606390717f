import Mathlib.Data.List.Range
import Mathlib.Algebra.BigOperators.Group.List.Basic
import Mathlib.Algebra.Ring.Nat

/-!
# The acknowledged uplink window

The agent's uplink (`uplink.rs`): producers append sequence-stamped messages to a bounded window,
the writer of the current session streams it from its front, and the controller acknowledges
cumulatively.

`Uplink.Window u log` relates the window to the log of all payloads it ever accepted.  Users of the
window need no more than what each operation does to `retired` and `position`.
-/

namespace Loadr

open List

variable {μ : Type}

/-- An uplink message: a payload with its position in the process's uplink sequence.  Position `0`
marks the ephemeral messages (`Register`, `Heartbeat`), which bypass the window. -/
structure AgentMessage (μ : Type) where
  seq : ℕ
  msg : μ
deriving DecidableEq, Repr

structure Entry (μ : Type) where
  msg : AgentMessage μ
  bytes : ℕ
deriving DecidableEq, Repr

namespace Uplink

structure State (μ : Type) where
  nextSeq : ℕ
  /-- Unacknowledged messages in sequence order; the front is the oldest. -/
  pending : List (Entry μ)
  /-- How many front entries the current session's writer already took. -/
  cursor : ℕ
  bytes : ℕ
  /-- Bumped by `rewind`; a writer that holds an older epoch has been superseded. -/
  epoch : ℕ
  closed : Bool
deriving DecidableEq, Repr

/-- Admission stops once the window has reached its budget. -/
def State.isFull (s : State μ) (maxBytes maxMessages : ℕ) : Bool :=
  maxBytes ≤ s.bytes || maxMessages ≤ s.pending.length

inductive Rejected (μ : Type)
  | full (msg : AgentMessage μ)
  | closed
deriving DecidableEq, Repr

/-- What one look at the window gives the writer: a message to send, a reason to wait for work, or
the end of the session's stream. -/
inductive Polled (μ : Type)
  | message (msg : AgentMessage μ)
  | wait
  | done
deriving DecidableEq, Repr

end Uplink

structure Uplink (μ : Type) where
  state : Uplink.State μ
  maxBytes : ℕ
  maxMessages : ℕ
  incarnation : String
deriving DecidableEq, Repr

namespace Uplink

def withLimits (maxBytes maxMessages : ℕ) (incarnation : String) : Uplink μ where
  state := { nextSeq := 0, pending := [], cursor := 0, bytes := 0, epoch := 0, closed := false }
  maxBytes := maxBytes
  maxMessages := maxMessages
  incarnation := incarnation

/-- Append without waiting.  The size is measured before the sequence number is stamped; a refused
message leaves the sequence space untouched. -/
def push (encodedLen : AgentMessage μ → ℕ) (u : Uplink μ) (msg : AgentMessage μ) :
    Except (Rejected μ) ℕ × Uplink μ :=
  if u.state.closed then (.error .closed, u)
  else if u.state.isFull u.maxBytes u.maxMessages then (.error (.full msg), u)
  else
    let seq := u.state.nextSeq + 1
    (.ok seq, { u with state := { u.state with
      nextSeq := seq
      bytes := u.state.bytes + encodedLen msg
      pending := u.state.pending ++
        [{ msg := { msg with seq := seq }, bytes := encodedLen msg }] } })

/-- The loop of `ack`: pop front entries through `seq`, tracking the bytes left and the number
freed. -/
def retire (seq : ℕ) : List (Entry μ) → ℕ → ℕ → List (Entry μ) × ℕ × ℕ
  | [], bytes, freed => ([], bytes, freed)
  | e :: pending, bytes, freed =>
    if e.msg.seq ≤ seq then retire seq pending (bytes - e.bytes) (freed + 1)
    else (e :: pending, bytes, freed)

/-- Retire every message through `seq`.  An acknowledgement of something never sent is ignored. -/
def ack (u : Uplink μ) (seq : ℕ) : Uplink μ :=
  if u.state.nextSeq < seq then u
  else
    let (pending, bytes, freed) := retire seq u.state.pending u.state.bytes 0
    if freed = 0 then u
    else { u with state := { u.state with
      pending := pending
      bytes := bytes
      -- the same logical position in a shorter deque
      cursor := u.state.cursor - freed } }

/-- Start a new session's view of the window and return the epoch its writer must present. -/
def rewind (u : Uplink μ) : ℕ × Uplink μ :=
  (u.state.epoch + 1, { u with state := { u.state with epoch := u.state.epoch + 1, cursor := 0 } })

def nextUnsent (u : Uplink μ) (epoch : ℕ) : Polled μ × Uplink μ :=
  if u.state.epoch ≠ epoch then (.done, u)
  else match u.state.pending[u.state.cursor]? with
    | some entry =>
      (.message entry.msg, { u with state := { u.state with cursor := u.state.cursor + 1 } })
    | none => (if u.state.closed then .done else .wait, u)

def close (u : Uplink μ) : Uplink μ := { u with state := { u.state with closed := true } }

/-! ## The window against the log of accepted payloads -/

/-- The messages a log of accepted payloads stands for: the sequence starts at 1. -/
def stamped (log : List μ) : List (AgentMessage μ) :=
  log.mapIdx fun i msg => { seq := i + 1, msg := msg }

def retired (u : Uplink μ) : ℕ := u.state.nextSeq - u.state.pending.length

/-- The number of messages in front of the one the current writer takes next. -/
def position (u : Uplink μ) : ℕ := u.retired + u.state.cursor

/-- The window holds the tail of `log` that has not been retired, stamped with its positions. -/
structure Window (u : Uplink μ) (log : List μ) : Prop where
  nextSeq_eq : u.state.nextSeq = log.length
  pending_le : u.state.pending.length ≤ log.length
  pending_eq : u.state.pending.map Entry.msg = (stamped log).drop u.retired
  cursor_le : u.state.cursor ≤ u.state.pending.length
  bytes_eq : u.state.bytes = (u.state.pending.map Entry.bytes).sum

@[simp] theorem length_stamped (log : List μ) : (stamped log).length = log.length := by
  simp [stamped]

theorem stamped_append (log : List μ) (msg : μ) :
    stamped (log ++ [msg]) = stamped log ++ [{ seq := log.length + 1, msg := msg }] := by
  simp [stamped, mapIdx_append]

theorem getElem?_stamped (log : List μ) (i : ℕ) :
    (stamped log)[i]? = log[i]?.map fun msg => { seq := i + 1, msg := msg } := by
  simp [stamped]

theorem map_seq_stamped (log : List μ) :
    (stamped log).map AgentMessage.seq = List.range' 1 log.length := by
  apply ext_getElem?
  intro i
  simp only [getElem?_map, getElem?_stamped, Option.map_map]
  by_cases h : i < log.length <;> simp [h, Nat.add_comm]

variable {u : Uplink μ} {log : List μ}

theorem Window.retired_add (hw : u.Window log) :
    u.retired + u.state.pending.length = log.length := by
  have := hw.pending_le
  unfold retired
  rw [hw.nextSeq_eq]
  omega

theorem Window.retired_le_position (u : Uplink μ) : u.retired ≤ u.position := Nat.le_add_right _ _

theorem Window.getElem?_pending (hw : u.Window log) (i : ℕ) :
    u.state.pending[i]?.map Entry.msg = (stamped log)[u.retired + i]? := by
  rw [← getElem?_map, hw.pending_eq, getElem?_drop]

theorem Window.map_seq_pending (hw : u.Window log) :
    u.state.pending.map (fun e => e.msg.seq) =
      List.range' (u.retired + 1) u.state.pending.length := by
  have h : u.state.pending.map (fun e => e.msg.seq) =
      (u.state.pending.map Entry.msg).map AgentMessage.seq := by simp
  rw [h, hw.pending_eq, map_drop, map_seq_stamped, drop_range', ← hw.retired_add]
  congr 1 <;> omega

theorem window_withLimits (maxBytes maxMessages : ℕ) (incarnation : String) :
    (withLimits maxBytes maxMessages incarnation : Uplink μ).Window [] where
  nextSeq_eq := rfl
  pending_le := le_rfl
  pending_eq := rfl
  cursor_le := le_rfl
  bytes_eq := rfl

/-! ## What the operations do -/

theorem push_spec (encodedLen : AgentMessage μ → ℕ) (hw : u.Window log) (msg : AgentMessage μ) :
    (∃ e, push encodedLen u msg = (.error e, u)) ∨
      ∃ v, push encodedLen u msg = (.ok (log.length + 1), v) ∧ v.Window (log ++ [msg.msg]) ∧
        v.retired = u.retired ∧ v.position = u.position ∧ v.state.epoch = u.state.epoch ∧
        v.incarnation = u.incarnation := by
  unfold push
  split_ifs with hc hf
  · exact .inl ⟨_, rfl⟩
  · exact .inl ⟨_, rfl⟩
  · refine .inr ⟨_, Prod.ext (by simp [hw.nextSeq_eq]) rfl, ⟨?_, ?_, ?_, ?_, ?_⟩, ?_, ?_, rfl, rfl⟩
    · simp [hw.nextSeq_eq]
    · simpa using hw.pending_le
    · have hr : u.retired ≤ (stamped log).length := by
        rw [length_stamped, ← hw.retired_add]
        exact Nat.le_add_right _ _
      simp only [retired, map_append, length_append, length_singleton,
        Nat.add_sub_add_right, stamped_append]
      rw [hw.pending_eq, ← retired, drop_append_of_le_length hr, hw.nextSeq_eq]
      rfl
    · simpa using Nat.le_succ_of_le hw.cursor_le
    · simp [hw.bytes_eq]
    · simp [retired]
    · simp [position, retired]

def release (u : Uplink μ) (freed : ℕ) : Uplink μ :=
  { u with state := { u.state with
    pending := u.state.pending.drop freed
    bytes := u.state.bytes - ((u.state.pending.take freed).map Entry.bytes).sum
    cursor := u.state.cursor - freed } }

theorem retire_eq (seq : ℕ) (es : List (Entry μ)) (start bytes freed : ℕ)
    (hs : es.map (fun e => e.msg.seq) = List.range' (start + 1) es.length) :
    retire seq es bytes freed =
      (es.drop (seq - start), bytes - ((es.take (seq - start)).map Entry.bytes).sum,
        freed + min es.length (seq - start)) := by
  induction es generalizing start bytes freed with
  | nil => simp [retire]
  | cons e es ih =>
    simp only [map_cons, length_cons, range'_succ, List.cons.injEq] at hs
    rw [retire]
    split_ifs with h
    · rw [ih (start + 1) _ _ hs.2]
      obtain ⟨k, hk⟩ : ∃ k, seq - start = k + 1 := ⟨seq - start - 1, by omega⟩
      have hk' : seq - (start + 1) = k := by omega
      simp only [hk, hk', drop_succ_cons, take_succ_cons, map_cons, sum_cons,
        length_cons, Prod.mk.injEq, true_and]
      omega
    · have hk : seq - start = 0 := by omega
      simp [hk]

theorem release_zero (u : Uplink μ) : u.release 0 = u := by
  simp [release]

section

variable (hw : u.Window log)
include hw

theorem ack_eq_release (seq : ℕ) :
    u.ack seq = if log.length < seq then u else u.release (seq - u.retired) := by
  have hadd := hw.retired_add
  unfold ack
  rw [hw.nextSeq_eq, retire_eq seq _ u.retired _ _ hw.map_seq_pending]
  split_ifs with hseq
  · rfl
  · have hmin : min u.state.pending.length (seq - u.retired) = seq - u.retired := by omega
    simp only [Nat.zero_add, hmin]
    split_ifs with hfree
    · rw [hfree, release_zero]
    · rfl

theorem retired_release {freed : ℕ} (hf : freed ≤ u.state.pending.length) :
    (u.release freed).retired = u.retired + freed := by
  have := hw.pending_le
  simp only [retired, release, length_drop, hw.nextSeq_eq]
  omega

theorem position_release {freed : ℕ} (hf : freed ≤ u.state.pending.length) :
    (u.release freed).position = max u.position (u.retired + freed) := by
  rw [position, retired_release hw hf, position]
  simp only [release]
  omega

theorem window_release {freed : ℕ} (hf : freed ≤ u.state.pending.length) :
    (u.release freed).Window log where
  nextSeq_eq := hw.nextSeq_eq
  pending_le := by
    simp only [release, length_drop]
    exact (Nat.sub_le _ _).trans hw.pending_le
  pending_eq := by
    rw [retired_release hw hf, ← drop_drop, ← hw.pending_eq, ← map_drop]
    rfl
  cursor_le := by
    simp only [release, length_drop]
    exact Nat.sub_le_sub_right hw.cursor_le _
  bytes_eq := by
    have h : (u.state.pending.map Entry.bytes).sum =
        ((u.state.pending.take freed).map Entry.bytes).sum +
          ((u.state.pending.drop freed).map Entry.bytes).sum := by
      rw [← sum_append, ← map_append, take_append_drop]
    simp only [release, hw.bytes_eq, h, Nat.add_sub_cancel_left]

/-- An acknowledgement retires what it covers, unless it covers something never sent; the writer's
position moves only where the front of the window overtakes it. -/
theorem ack_spec (seq : ℕ) :
    (u.ack seq).Window log ∧
      (u.ack seq).retired = (if seq ≤ log.length then max u.retired seq else u.retired) ∧
      (u.ack seq).position = max u.position (u.ack seq).retired ∧
      (u.ack seq).state.epoch = u.state.epoch ∧ (u.ack seq).incarnation = u.incarnation := by
  have hadd := hw.retired_add
  rw [ack_eq_release hw]
  split_ifs with h₁ h₂ h₂
  · omega
  · exact ⟨hw, rfl, (max_eq_left (Window.retired_le_position u)).symm, rfl, rfl⟩
  · have hf : seq - u.retired ≤ u.state.pending.length := by omega
    refine ⟨window_release hw hf, ?_, ?_, rfl, rfl⟩
    · rw [retired_release hw hf]
      omega
    · rw [position_release hw hf, retired_release hw hf]
  · omega

theorem rewind_spec :
    u.rewind.2.Window log ∧ u.rewind.2.retired = u.retired ∧ u.rewind.2.position = u.retired ∧
      u.rewind.2.state.epoch = u.state.epoch + 1 ∧ u.rewind.1 = u.state.epoch + 1 ∧
      u.rewind.2.incarnation = u.incarnation :=
  ⟨⟨hw.nextSeq_eq, hw.pending_le, hw.pending_eq, Nat.zero_le _, hw.bytes_eq⟩, rfl, rfl, rfl, rfl,
    rfl⟩

/-- A writer is handed the message at the window's position, and only one of the current epoch. -/
theorem nextUnsent_spec {epoch : ℕ} {msg : AgentMessage μ} {v : Uplink μ}
    (h : u.nextUnsent epoch = (.message msg, v)) :
    epoch = u.state.epoch ∧ (stamped log)[u.position]? = some msg ∧ v.Window log ∧
      v.retired = u.retired ∧ v.position = u.position + 1 ∧ v.state.epoch = u.state.epoch ∧
      v.incarnation = u.incarnation := by
  unfold nextUnsent at h
  by_cases he : u.state.epoch ≠ epoch
  · simp [he] at h
  · rw [if_neg he] at h
    rcases hp : u.state.pending[u.state.cursor]? with _ | entry
    · rw [hp] at h
      simp only [Prod.mk.injEq] at h
      split_ifs at h <;> simp at h
    · rw [hp] at h
      simp only [Prod.mk.injEq, Polled.message.injEq] at h
      obtain ⟨rfl, rfl⟩ := h
      have hlt := (List.getElem?_eq_some_iff.1 hp).1
      refine ⟨(not_not.1 he).symm, ?_, ⟨hw.nextSeq_eq, hw.pending_le, hw.pending_eq, hlt,
        hw.bytes_eq⟩, rfl, rfl, rfl, rfl⟩
      rw [position, ← hw.getElem?_pending, hp]
      rfl

end

theorem nextUnsent_idle {u : Uplink μ} {epoch : ℕ}
    (h : ∀ msg, (u.nextUnsent epoch).1 ≠ .message msg) :
    (u.nextUnsent epoch).2 = u := by
  unfold nextUnsent at h ⊢
  by_cases he : u.state.epoch ≠ epoch
  · rw [if_pos he]
  · rw [if_neg he] at h ⊢
    rcases hp : u.state.pending[u.state.cursor]? with _ | entry
    · rfl
    · simp [hp] at h

theorem close_spec (hw : u.Window log) :
    u.close.Window log ∧ u.close.retired = u.retired ∧ u.close.position = u.position ∧
      u.close.state.epoch = u.state.epoch ∧ u.close.incarnation = u.incarnation :=
  ⟨⟨hw.nextSeq_eq, hw.pending_le, hw.pending_eq, hw.cursor_le, hw.bytes_eq⟩, rfl, rfl, rfl, rfl⟩

/-! ## Whole runs -/

inductive Op (μ : Type)
  | push (msg : AgentMessage μ)
  | ack (seq : ℕ)
  | rewind
  | nextUnsent (epoch : ℕ)
  | close

/-- One operation.  Beside the window stands the sequence number of the last message that the writer
of the current epoch was handed, and zero before the first. -/
def step (encodedLen : AgentMessage μ → ℕ) (s : Uplink μ × ℕ) : Op μ → Uplink μ × ℕ
  | .push msg => ((s.1.push encodedLen msg).2, s.2)
  | .ack seq => (s.1.ack seq, s.2)
  | .rewind => (s.1.rewind.2, 0)
  | .nextUnsent epoch =>
    match s.1.nextUnsent epoch with
    | (.message msg, v) => (v, msg.seq)
    | (_, v) => (v, s.2)
  | .close => (s.1.close, s.2)

/-- The window is within its limits: it holds at most one message beyond its budget. -/
structure Bounded (u : Uplink μ) : Prop where
  length_le : u.state.pending.length ≤ u.maxMessages
  bytes_lt : ∀ e ∈ u.state.pending.getLast?, u.state.bytes < u.maxBytes + e.bytes

/-- The window accounts for what it holds and for what the writer has been handed. -/
structure Accounted (maxBytes maxMessages : ℕ) (s : Uplink μ × ℕ) : Prop where
  window : ∃ log, s.1.Window log
  bounded : s.1.Bounded
  position_eq : s.1.position = max s.1.retired s.2
  limits : s.1.maxBytes = maxBytes ∧ s.1.maxMessages = maxMessages

theorem Bounded.push (encodedLen : AgentMessage μ → ℕ) (h : u.Bounded) (msg : AgentMessage μ) :
    (u.push encodedLen msg).2.Bounded := by
  unfold Uplink.push
  split_ifs with hc hf
  · exact h
  · exact h
  · simp only [State.isFull, Bool.or_eq_true, decide_eq_true_eq, not_or, not_le] at hf
    exact ⟨by simpa using Nat.succ_le_of_lt hf.2, by simpa using hf.1⟩

theorem Bounded.release (h : u.Bounded) (freed : ℕ) : (u.release freed).Bounded where
  length_le := by
    simp only [Uplink.release, length_drop]
    exact (Nat.sub_le _ _).trans h.length_le
  bytes_lt e he := by
    simp only [Uplink.release, getLast?_drop] at he
    split_ifs at he with hlen
    · cases he
    · exact (Nat.sub_le _ _).trans_lt (h.bytes_lt e he)

theorem nextUnsent_eq (u : Uplink μ) (epoch : ℕ) :
    ∃ cursor, (u.nextUnsent epoch).2 = { u with state := { u.state with cursor } } := by
  unfold nextUnsent
  split
  · exact ⟨_, rfl⟩
  · split
    · exact ⟨_, rfl⟩
    · exact ⟨_, rfl⟩

variable {maxBytes maxMessages : ℕ} {s : Uplink μ × ℕ}

theorem Accounted.step (h : Accounted maxBytes maxMessages s) (encodedLen : AgentMessage μ → ℕ)
    (op : Op μ) : Accounted maxBytes maxMessages (step encodedLen s op) := by
  obtain ⟨u, last⟩ := s
  obtain ⟨⟨log, hw⟩, hb, hpos, hlim⟩ := h
  cases op with
  | push msg =>
    have hlim' : (u.push encodedLen msg).2.maxBytes = maxBytes ∧
        (u.push encodedLen msg).2.maxMessages = maxMessages := by
      unfold push
      split_ifs <;> exact hlim
    rcases push_spec encodedLen hw msg with ⟨e, he⟩ | ⟨v, hv, hwin, hret, hpos', -, -⟩
    · exact ⟨⟨log, by simpa [Uplink.step, he] using hw⟩, hb.push encodedLen msg,
        by simpa [Uplink.step, he] using hpos, hlim'⟩
    · refine ⟨⟨_, by simpa [Uplink.step, hv] using hwin⟩, hb.push encodedLen msg, ?_, hlim'⟩
      simpa [Uplink.step, hv, hret, hpos'] using hpos
  | ack seq =>
    obtain ⟨hwin, hret, hpos', -, -⟩ := ack_spec hw seq
    refine ⟨⟨log, hwin⟩, ?_, ?_, ?_⟩
    · simp only [Uplink.step, ack_eq_release hw]
      split_ifs
      · exact hb
      · exact hb.release _
    · have hle : u.retired ≤ (u.ack seq).retired := by
        rw [hret]
        split_ifs
        · exact le_max_left _ _
        · exact le_rfl
      simp only [Uplink.step, hpos'] at hpos ⊢
      omega
    · simp only [Uplink.step, ack_eq_release hw]
      split_ifs <;> exact hlim
  | rewind =>
    obtain ⟨hwin, hret, hpos', -⟩ := rewind_spec hw
    exact ⟨⟨log, hwin⟩, ⟨hb.length_le, hb.bytes_lt⟩, by simp [Uplink.step, hpos', hret], hlim⟩
  | nextUnsent epoch =>
    obtain ⟨cursor, hcursor⟩ := u.nextUnsent_eq epoch
    simp only [Uplink.step]
    cases hn : u.nextUnsent epoch with
    | mk polled v =>
      rw [hn] at hcursor
      dsimp only at hcursor
      cases polled with
      | message msg =>
        obtain ⟨-, hget, hwin, hret, hpos', -, -⟩ := nextUnsent_spec hw hn
        rw [getElem?_stamped] at hget
        obtain ⟨_, -, rfl⟩ := Option.map_eq_some_iff.1 hget
        have hle := Window.retired_le_position u
        refine ⟨⟨log, hwin⟩, ?_, ?_, ?_⟩
        · exact hcursor ▸ ⟨hb.length_le, hb.bytes_lt⟩
        · simp only [hret, hpos']
          omega
        · exact hcursor ▸ hlim
      | wait | done =>
        have hidle : v = u := by
          have hu : (u.nextUnsent epoch).2 = u := nextUnsent_idle (by simp [hn])
          rwa [hn] at hu
        exact hidle ▸ ⟨⟨log, hw⟩, hb, hpos, hlim⟩
  | close =>
    obtain ⟨hwin, hret, hpos', -⟩ := close_spec hw
    exact ⟨⟨log, hwin⟩, ⟨hb.length_le, hb.bytes_lt⟩, by simpa [Uplink.step, hpos', hret] using hpos,
      hlim⟩

def run (encodedLen : AgentMessage μ → ℕ) (maxBytes maxMessages : ℕ) (incarnation : String)
    (ops : List (Op μ)) : Uplink μ × ℕ :=
  ops.foldl (step encodedLen) (withLimits maxBytes maxMessages incarnation, 0)

theorem accounted_run (encodedLen : AgentMessage μ → ℕ) (maxBytes maxMessages : ℕ)
    (incarnation : String) (ops : List (Op μ)) :
    Accounted maxBytes maxMessages (run encodedLen maxBytes maxMessages incarnation ops) := by
  have hstart : Accounted maxBytes maxMessages
      ((withLimits maxBytes maxMessages incarnation, 0) : Uplink μ × ℕ) :=
    ⟨⟨[], window_withLimits _ _ _⟩, ⟨Nat.zero_le _, by simp [withLimits]⟩, rfl, rfl, rfl⟩
  exact List.foldlRecOn ops _ hstart fun _ h op _ => h.step encodedLen op

theorem find?_seq (last : ℕ) (es : List (Entry μ)) (start : ℕ)
    (hs : es.map (fun e => e.msg.seq) = List.range' (start + 1) es.length) :
    es.find? (fun e => last < e.msg.seq) = es[last - start]? := by
  induction es generalizing start with
  | nil => rfl
  | cons e es ih =>
    simp only [map_cons, length_cons, range'_succ, List.cons.injEq] at hs
    rw [find?_cons, hs.1]
    by_cases hlast : last < start + 1
    · simp [hlast, show last - start = 0 by omega]
    · simp [hlast, ih (start + 1) hs.2, show last - start = last - (start + 1) + 1 by omega]

/-- **Window accounting.**  After any operations on a window: its bytes are those reserved for the
pending entries, which are consecutive, end at the last sequence number and are within the limits
but for the bytes of one message; refused messages, and acknowledgements of what was never sent or
has left the window, change nothing; and the writer of the current epoch is handed the first pending
message after the last one it was handed. -/
theorem window_accounting (encodedLen : AgentMessage μ → ℕ) (maxBytes maxMessages : ℕ)
    (incarnation : String) (ops : List (Op μ)) :
    let s := run encodedLen maxBytes maxMessages incarnation ops
    let state := s.1.state
    state.bytes = (state.pending.map Entry.bytes).sum ∧
    state.pending.map (fun e => e.msg.seq) = List.range' (s.1.retired + 1) state.pending.length ∧
    s.1.retired + state.pending.length = state.nextSeq ∧
    state.cursor ≤ state.pending.length ∧ state.pending.length ≤ maxMessages ∧
    (∀ e ∈ state.pending.getLast?, state.bytes < maxBytes + e.bytes) ∧
    (∀ msg e, (s.1.push encodedLen msg).1 = .error e → (s.1.push encodedLen msg).2 = s.1) ∧
    (∀ seq, state.nextSeq < seq ∨ seq ≤ s.1.retired → s.1.ack seq = s.1) ∧
    (s.1.nextUnsent state.epoch).1 =
      match state.pending.find? (fun e => s.2 < e.msg.seq) with
      | some e => .message e.msg
      | none => if state.closed then .done else .wait := by
  intro s state
  obtain ⟨⟨log, hw⟩, hb, hpos, hbytes, hmessages⟩ :=
    accounted_run encodedLen maxBytes maxMessages incarnation ops
  refine ⟨hw.bytes_eq, hw.map_seq_pending, hw.retired_add.trans hw.nextSeq_eq.symm, hw.cursor_le,
    hmessages ▸ hb.length_le, hbytes ▸ hb.bytes_lt, ?_, ?_, ?_⟩
  · intro msg e he
    unfold push at he ⊢
    split_ifs at he ⊢ <;> rfl
  · intro seq hseq
    rw [ack_eq_release hw, ← hw.nextSeq_eq]
    rcases hseq with hseq | hseq
    · exact if_pos hseq
    · rw [Nat.sub_eq_zero_of_le hseq, release_zero, ite_self]
  · have hcursor : state.cursor = s.2 - s.1.retired := by
      have hpos' : s.1.retired + state.cursor = max s.1.retired s.2 := hpos
      omega
    rw [nextUnsent, if_neg (not_not.2 rfl), find?_seq _ _ _ hw.map_seq_pending, ← hcursor]
    cases state.pending[state.cursor]? <;> rfl

end Uplink

end Loadr
