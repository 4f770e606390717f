import Loadr.Lib.Machine
import Mathlib.Data.List.Nodup

/-!
# Rendezvous

The barriers that the virtual users of a scenario share.  A barrier counts an arrival when the wait
is first polled, and goes on counting it when the wait is dropped.

As long as nobody gives up waiting, a release lets go a full party (`full_releases`).  After that
the barrier releases parties that are too small (`released_alone`).
-/

namespace Loadr.Flow

open List

structure Waiting where
  vu : ℕ
  /-- The context of the virtual user that waits: its own, or that of a parallel branch. -/
  context : ℕ
  name : String
  users : ℕ
deriving DecidableEq

structure Barrier where
  size : ℕ
  arrived : ℕ
deriving DecidableEq

structure Rendezvous where
  barriers : String → Option Barrier := fun _ => none
  waiting : List Waiting := []
  releases : List (List Waiting) := []

def waitingAt (name : String) (waiting : List Waiting) : List Waiting :=
  waiting.filter (·.name = name)

namespace Rendezvous

inductive Action
  | arrive (p : Waiting)
  | timeOut (p : Waiting)
  | cancel (vu : ℕ)

/-- The barrier of a name, which the first to come makes. -/
def barrier (s : Rendezvous) (p : Waiting) : Barrier := (s.barriers p.name).getD ⟨max p.users 1, 0⟩

def setBarrier (s : Rendezvous) (name : String) (b : Barrier) : String → Option Barrier :=
  Function.update s.barriers name (some b)

def release (s : Rendezvous) (p : Waiting) : Rendezvous where
  barriers := s.setBarrier p.name { s.barrier p with arrived := 0 }
  waiting := s.waiting.filter (·.name ≠ p.name)
  releases := s.releases ++ [waitingAt p.name s.waiting ++ [p]]

def wait (s : Rendezvous) (p : Waiting) : Rendezvous :=
  { s with
    barriers := s.setBarrier p.name { s.barrier p with arrived := (s.barrier p).arrived + 1 }
    waiting := s.waiting ++ [p] }

def next (s : Rendezvous) : Action → Option Rendezvous
  | .arrive p =>
    -- Validation refuses a step without users, and a context waits in one place at a time.
    if 0 < p.users ∧ ∀ q ∈ s.waiting, (q.vu, q.context) ≠ (p.vu, p.context) then
      some (if (s.barrier p).arrived + 1 = (s.barrier p).size then s.release p else s.wait p)
    else none
  | .timeOut p => if p ∈ s.waiting then some { s with waiting := s.waiting.erase p } else none
  | .cancel vu => some { s with waiting := s.waiting.filter (·.vu ≠ vu) }

def machine : Machine Rendezvous Action where
  init s := s = {}
  next := next

/-- A party that has as many virtual users as each of its steps asked for. -/
def Full (party : List Waiting) : Prop :=
  (party.map Waiting.vu).Nodup ∧ ∀ p ∈ party, p.users = party.length

/-- Nobody gives up waiting, steps of one name ask for the same number of users, and a virtual user
does not wait in two branches for one party. -/
def Patient (s : Rendezvous) : Action → Prop
  | .arrive p => (s.barrier p).size = p.users ∧ ∀ q ∈ waitingAt p.name s.waiting, q.vu ≠ p.vu
  | .timeOut _ => False
  | .cancel vu => ∀ q ∈ s.waiting, q.vu ≠ vu

instance (s : Rendezvous) : (a : Action) → Decidable (s.Patient a)
  | .arrive p => inferInstanceAs (Decidable (_ ∧ ∀ q ∈ waitingAt p.name s.waiting, q.vu ≠ p.vu))
  | .timeOut _ => inferInstanceAs (Decidable False)
  | .cancel vu => inferInstanceAs (Decidable (∀ q ∈ s.waiting, q.vu ≠ vu))

/-! ## Phases -/

/-- The barrier counts those that wait at it. -/
structure InPhase (s : Rendezvous) : Prop where
  unknown : ∀ name, s.barriers name = none → waitingAt name s.waiting = []
  arrived : ∀ name b, s.barriers name = some b → b.arrived = (waitingAt name s.waiting).length
  users : ∀ name b, s.barriers name = some b → ∀ p ∈ waitingAt name s.waiting, p.users = b.size
  vus : ∀ name, ((waitingAt name s.waiting).map Waiting.vu).Nodup

variable {s : Rendezvous} {p : Waiting} {name : String}

theorem waitingAt_append (waiting : List Waiting) :
    waitingAt name (waiting ++ [p]) =
      waitingAt name waiting ++ if p.name = name then [p] else [] := by
  unfold waitingAt
  rw [filter_append]
  by_cases h : p.name = name <;> simp [h]

theorem waitingAt_leave (waiting : List Waiting) (name' : String) :
    waitingAt name (waiting.filter (·.name ≠ name')) =
      if name = name' then [] else waitingAt name waiting := by
  unfold waitingAt
  rw [filter_filter]
  split_ifs with h
  · subst h
    exact filter_eq_nil_iff.2 (by simp)
  · refine filter_congr fun q _ => ?_
    by_cases hq : q.name = name <;> simp [hq, h]

theorem InPhase.barrier (h : s.InPhase) :
    (s.barrier p).arrived = (waitingAt p.name s.waiting).length ∧
      ∀ q ∈ waitingAt p.name s.waiting, q.users = (s.barrier p).size := by
  unfold Rendezvous.barrier
  cases hb : s.barriers p.name with
  | none =>
    rw [h.unknown _ hb]
    exact ⟨rfl, by simp⟩
  | some b => exact ⟨h.arrived _ b hb, h.users _ b hb⟩

theorem nodup_party (h : s.InPhase) (hvu : ∀ q ∈ waitingAt p.name s.waiting, q.vu ≠ p.vu) :
    ((waitingAt p.name s.waiting ++ [p]).map Waiting.vu).Nodup := by
  rw [map_append, map_singleton]
  refine (h.vus p.name).append (nodup_singleton _) ?_
  intro v hv hp
  obtain ⟨q, hq, rfl⟩ := mem_map.1 hv
  exact hvu q hq (mem_singleton.1 hp)

theorem InPhase.full (h : s.InPhase) (hpatient : s.Patient (.arrive p))
    (hlast : (s.barrier p).arrived + 1 = (s.barrier p).size) :
    Full (waitingAt p.name s.waiting ++ [p]) := by
  obtain ⟨harrived, husers⟩ := h.barrier (p := p)
  refine ⟨nodup_party h hpatient.2, fun q hq => ?_⟩
  have hlength : (waitingAt p.name s.waiting ++ [p]).length = (s.barrier p).size := by
    rw [length_append, length_singleton, ← harrived, hlast]
  rw [hlength]
  rcases mem_append.1 hq with hq | hq
  · exact husers q hq
  · rw [mem_singleton.1 hq, hpatient.1]

theorem setBarrier_eq_none {b : Barrier} (h : s.setBarrier p.name b name = none) :
    name ≠ p.name ∧ s.barriers name = none := by
  unfold setBarrier at h
  rcases eq_or_ne name p.name with rfl | hne
  · simp at h
  · exact ⟨hne, by rwa [Function.update_of_ne hne] at h⟩

theorem setBarrier_eq_some {b b' : Barrier} (h : s.setBarrier p.name b name = some b') :
    name = p.name ∧ b' = b ∨ name ≠ p.name ∧ s.barriers name = some b' := by
  unfold setBarrier at h
  rcases eq_or_ne name p.name with rfl | hne
  · rw [Function.update_self, Option.some.injEq] at h
    exact .inl ⟨rfl, h.symm⟩
  · exact .inr ⟨hne, by rwa [Function.update_of_ne hne] at h⟩

theorem InPhase.release (h : s.InPhase) (p : Waiting) : (s.release p).InPhase where
  unknown name hb := by
    obtain ⟨hne, hb⟩ := setBarrier_eq_none hb
    rw [Rendezvous.release, waitingAt_leave, if_neg hne, h.unknown name hb]
  arrived name b hb := by
    rw [Rendezvous.release, waitingAt_leave]
    rcases setBarrier_eq_some hb with ⟨rfl, rfl⟩ | ⟨hne, hb⟩
    · rw [if_pos rfl, length_nil]
    · rw [if_neg hne, h.arrived name b hb]
  users name b hb q hq := by
    rw [Rendezvous.release, waitingAt_leave] at hq
    rcases setBarrier_eq_some hb with ⟨rfl, rfl⟩ | ⟨hne, hb⟩
    · rw [if_pos rfl] at hq
      cases hq
    · rw [if_neg hne] at hq
      exact h.users name b hb q hq
  vus name := by
    rw [Rendezvous.release, waitingAt_leave]
    split_ifs
    · exact nodup_nil
    · exact h.vus name

theorem InPhase.wait (h : s.InPhase) (hpatient : s.Patient (.arrive p)) : (s.wait p).InPhase where
  unknown name hb := by
    obtain ⟨hne, hb⟩ := setBarrier_eq_none hb
    rw [Rendezvous.wait, waitingAt_append, if_neg hne.symm, append_nil, h.unknown name hb]
  arrived name b hb := by
    rw [Rendezvous.wait, waitingAt_append]
    rcases setBarrier_eq_some hb with ⟨rfl, rfl⟩ | ⟨hne, hb⟩
    · rw [if_pos rfl, length_append, length_singleton, (h.barrier (p := p)).1]
    · rw [if_neg hne.symm, append_nil, h.arrived name b hb]
  users name b hb q hq := by
    rw [Rendezvous.wait, waitingAt_append] at hq
    rcases setBarrier_eq_some hb with ⟨rfl, rfl⟩ | ⟨hne, hb⟩
    · rw [if_pos rfl] at hq
      rcases mem_append.1 hq with hq | hq
      · exact (h.barrier (p := p)).2 q hq
      · rw [mem_singleton.1 hq]
        exact hpatient.1.symm
    · rw [if_neg hne.symm, append_nil] at hq
      exact h.users name b hb q hq
  vus name := by
    rw [Rendezvous.wait, waitingAt_append]
    split_ifs with hname
    · subst hname
      exact nodup_party h hpatient.2
    · rw [append_nil]
      exact h.vus name

/-- As long as nobody gives up, barriers stay in phase and release full parties. -/
theorem step_patient {s' : Rendezvous} {a : Action} (h : s.InPhase)
    (hfull : ∀ r ∈ s.releases, Full r)
    (hpatient : s.Patient a) (hs : s.next a = some s') :
    s'.InPhase ∧ ∀ r ∈ s'.releases, Full r := by
  cases a with
  | arrive p =>
    simp only [next, Option.ite_none_right_eq_some, Option.some.injEq] at hs
    obtain ⟨-, rfl⟩ := hs
    split_ifs with hlast
    · refine ⟨h.release p, fun r hr => ?_⟩
      rcases mem_append.1 hr with hr | hr
      · exact hfull r hr
      · rw [mem_singleton.1 hr]
        exact h.full hpatient hlast
    · exact ⟨h.wait hpatient, hfull⟩
  | timeOut p => exact hpatient.elim
  | cancel vu =>
    cases hs
    have hkeep : s.waiting.filter (·.vu ≠ vu) = s.waiting :=
      filter_eq_self.2 fun q hq => by simpa using hpatient q hq
    rw [hkeep]
    exact ⟨⟨h.unknown, h.arrived, h.users, h.vus⟩, hfull⟩

/-- A release lets go a full party in every run in which nobody gives up waiting. -/
theorem full_releases (h : (machine.guarded Patient).Reachable s) : ∀ r ∈ s.releases, Full r := by
  have hinv : s.InPhase ∧ ∀ r ∈ s.releases, Full r := by
    induction h with
    | init h =>
      subst h
      exact ⟨⟨fun _ _ => rfl, by simp, by simp, fun _ => nodup_nil⟩, by simp⟩
    | step _ hs ih =>
      obtain ⟨hpatient, hs⟩ := Machine.guarded_next.1 hs
      exact step_patient ih.1 ih.2 hpatient hs
  exact hinv.2

theorem full_releases_two : ∃ s : Rendezvous, s.releases.length = 1 ∧ ∀ r ∈ s.releases, Full r := by
  obtain ⟨s, hs, hlength⟩ := (machine.guarded Patient).exists_reachable_of_run rfl
    [.arrive ⟨1, 0, "cart", 2⟩, .arrive ⟨2, 0, "cart", 2⟩]
    (fun s => s.releases.length = 1) (by decide +kernel)
  exact ⟨s, hlength, full_releases hs⟩

/-- One user gives up, and the next one is let go alone. -/
theorem released_alone : ∃ s, machine.Reachable s ∧
    s.releases = [[⟨2, 0, "cart", 2⟩]] ∧ ¬ Full [⟨2, 0, "cart", 2⟩] := by
  obtain ⟨s, hs, hreleases⟩ := machine.exists_reachable_of_run rfl
    [.arrive ⟨1, 0, "cart", 2⟩, .timeOut ⟨1, 0, "cart", 2⟩, .arrive ⟨2, 0, "cart", 2⟩]
    (fun s => s.releases = [[⟨2, 0, "cart", 2⟩]]) (by decide +kernel)
  exact ⟨s, hs, hreleases, fun h => absurd (h.2 ⟨2, 0, "cart", 2⟩ (by simp)) (by decide)⟩

end Rendezvous

end Loadr.Flow
