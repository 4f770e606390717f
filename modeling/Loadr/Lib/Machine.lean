import Mathlib.Logic.Basic
import Mathlib.Data.Nat.Notation

/-!
# State machines

A `Machine σ α` has initial states and a guarded step function: `next s a` is the state after the
action `a`, or `none` where `a` is not enabled.  Safety properties are proved with
`Reachable.invariant`.  `guarded` restricts the steps by a condition on the state before the step
and the action, so that "every run whose steps all meet the condition" is reachability in it.
-/

structure Machine (σ α : Type*) where
  init : σ → Prop
  next : σ → α → Option σ

namespace Machine

open Option List

variable {σ α : Type*} {M : Machine σ α}

/-- The states a machine can be in after finitely many steps. -/
inductive Reachable (M : Machine σ α) : σ → Prop
  | init {s : σ} : M.init s → Reachable M s
  | step {s t : σ} {a : α} : Reachable M s → M.next s a = some t → Reachable M t

variable {s t : σ} {G : σ → α → Prop}

/-- A property of the initial states that every step from a reachable state keeps holds in every
reachable state. -/
theorem Reachable.invariant {I : σ → Prop} (hinit : ∀ s, M.init s → I s)
    (hstep : ∀ s a t, M.Reachable s → I s → M.next s a = some t → I t) (h : M.Reachable s) :
    I s := by
  induction h with
  | init h => exact hinit _ h
  | step hr hs ih => exact hstep _ _ _ hr ih hs

def run (M : Machine σ α) (s : σ) : List α → Option σ
  | [] => some s
  | a :: as => (M.next s a).bind fun t => M.run t as

theorem Reachable.run (h : M.Reachable s) {as : List α} (hr : M.run s as = some t) :
    M.Reachable t := by
  induction as generalizing s with
  | nil => exact some.inj hr ▸ h
  | cons a as ih =>
    obtain ⟨u, hu, ht⟩ := bind_eq_some_iff.1 hr
    exact ih (.step h hu) ht

theorem exists_reachable_of_run (M : Machine σ α) {s₀ : σ} (hinit : M.init s₀) (as : List α)
    (P : σ → Prop) [DecidablePred P] (h : (M.run s₀ as).any (fun s => decide (P s)) = true) :
    ∃ s, M.Reachable s ∧ P s := by
  obtain ⟨s, hs, hP⟩ := (any_eq_true _ _).1 h
  exact ⟨s, (Reachable.init hinit).run hs, of_decide_eq_true hP⟩

/-- What holds initially and is kept by every step, as a property of the actions so far and the
state, holds after a run. -/
theorem run_invariant {P : List α → σ → Prop} {as : List α} (hinit : P [] s)
    (hstep : ∀ as s a t, P as s → M.next s a = some t → P (as ++ [a]) t)
    (h : M.run s as = some t) : P as t := by
  have hrun : ∀ (pre as : List α) (s : σ), P pre s → M.run s as = some t → P (pre ++ as) t := by
    intro pre as
    induction as generalizing pre with
    | nil =>
      intro s hP hr
      rw [append_nil, ← some.inj hr]
      exact hP
    | cons a as ih =>
      intro s hP hr
      obtain ⟨u, hu, ht⟩ := bind_eq_some_iff.1 hr
      rw [append_cons]
      exact ih _ u (hstep pre s a u hP hu) ht
  exact hrun [] as s hinit h

/-- The steps that lead to a state, newest first, each with the state it was taken in. -/
inductive History (M : Machine σ α) : List (σ × α) → σ → Prop
  | init {s : σ} : M.init s → History M [] s
  | step {l : List (σ × α)} {s t : σ} {a : α} : History M l s → M.next s a = some t →
    History M ((s, a) :: l) t

theorem History.reachable {l : List (σ × α)} (h : M.History l s) : M.Reachable s := by
  induction h with
  | init h => exact .init h
  | step _ hs ih => exact .step ih hs

theorem Reachable.exists_history (h : M.Reachable s) : ∃ l, M.History l s := by
  induction h with
  | init h => exact ⟨[], .init h⟩
  | step _ hs ih =>
    obtain ⟨l, hl⟩ := ih
    exact ⟨_, hl.step hs⟩

/-- `t` is reached from `s` by steps that are all taken in states with the property `P`. -/
inductive While (M : Machine σ α) (P : σ → Prop) (s : σ) : σ → Prop
  | refl : While M P s s
  | step {t u : σ} {a : α} : While M P s t → P t → M.next t a = some u → While M P s u

theorem Reachable.while {P : σ → Prop} (h : M.Reachable s) (hw : M.While P s t) :
    M.Reachable t := by
  induction hw with
  | refl => exact h
  | step _ _ hs ih => exact .step ih hs

/-- The machine whose steps moreover meet `G` in the state before the step. -/
def guarded (M : Machine σ α) (G : σ → α → Prop) [∀ s a, Decidable (G s a)] : Machine σ α where
  init := M.init
  next s a := if G s a then M.next s a else none

theorem guarded_next [∀ s a, Decidable (G s a)] {a : α} :
    (M.guarded G).next s a = some t ↔ G s a ∧ M.next s a = some t := by
  by_cases h : G s a <;> simp [guarded, h]

theorem while_of_run (M : Machine σ α) (P : σ → Prop) [DecidablePred P] {s₀ : σ}
    (hw : M.While P s₀ s) (as : List α) (hr : (M.guarded fun s _ => P s).run s as = some t) :
    M.While P s₀ t := by
  induction as generalizing s with
  | nil => exact some.inj hr ▸ hw
  | cons a as ih =>
    obtain ⟨u, hu, ht⟩ := bind_eq_some_iff.1 hr
    obtain ⟨hP, hu⟩ := guarded_next.1 hu
    exact ih (hw.step hP hu) ht

theorem Reachable.of_guarded [∀ s a, Decidable (G s a)] (h : (M.guarded G).Reachable s) :
    M.Reachable s := by
  induction h with
  | init h => exact .init h
  | step _ hs ih => exact .step ih (guarded_next.1 hs).2

theorem Reachable.guarded_mono {H : σ → α → Prop} [∀ s a, Decidable (G s a)]
    [∀ s a, Decidable (H s a)] (hGH : ∀ s a, G s a → H s a) (h : (M.guarded G).Reachable s) :
    (M.guarded H).Reachable s := by
  induction h with
  | init h => exact .init h
  | step _ hs ih =>
    obtain ⟨hG, hs⟩ := guarded_next.1 hs
    exact .step ih (guarded_next.2 ⟨hGH _ _ hG, hs⟩)

/-- The machine with a clock that is never set back; `time a` is the time an action reads. -/
def clocked (M : Machine σ α) (time : α → Option ℕ) : Machine (σ × ℕ) α where
  init s := M.init s.1
  next s a :=
    if s.2 ≤ (time a).getD s.2 then (M.next s.1 a).map (·, (time a).getD s.2) else none

theorem clocked_next {time : α → Option ℕ} {s t : σ × ℕ} {a : α} :
    (M.clocked time).next s a = some t ↔
      s.2 ≤ t.2 ∧ t.2 = (time a).getD s.2 ∧ M.next s.1 a = some t.1 := by
  obtain ⟨t, n⟩ := t
  simp only [clocked, ite_none_right_eq_some, map_eq_some_iff, Prod.mk.injEq]
  constructor
  · rintro ⟨hle, t, hnext, rfl, rfl⟩
    exact ⟨hle, rfl, hnext⟩
  · rintro ⟨hle, rfl, hnext⟩
    exact ⟨hle, t, hnext, rfl, rfl⟩

theorem Reachable.of_clocked {time : α → Option ℕ} {s : σ × ℕ}
    (h : (M.clocked time).Reachable s) : M.Reachable s.1 := by
  induction h with
  | init h => exact .init h
  | step _ hs ih => exact .step ih (clocked_next.1 hs).2.2

end Machine
