import Mathlib.Data.List.Basic

/-!
# Commands

Computations that change a state and may fail.  A failure keeps the changes made before it.  The
rules say what holds of the state in which a command ends, whether it fails or not.
-/

namespace Loadr

/-- A command on states `σ` that returns an `α` or fails with a message. -/
def Command (σ α : Type) : Type := σ → Except String α × σ

namespace Command

variable {σ α β : Type}

instance : Monad (Command σ) where
  pure a := fun s => (.ok a, s)
  bind c f := fun s =>
    match c s with
    | (.ok a, s') => f a s'
    | (.error e, s') => (.error e, s')

def fail (message : String) : Command σ α := fun s => (.error message, s)

def query (f : σ → Except String α) : Command σ α := fun s => (f s, s)

def modify (f : σ → σ) : Command σ Unit := fun s => (.ok (), f s)

def each (f : α → Command σ Unit) : List α → Command σ Unit
  | [] => pure ()
  | a :: as => do
    f a
    each f as

/-- The state and the result in which the command ends from `s`. -/
def Ends (c : Command σ α) (s : σ) (Q : Except String α → σ → Prop) : Prop := Q (c s).1 (c s).2

variable {c : Command σ α} {s : σ} {Q : Except String α → σ → Prop}

@[simp] theorem ends_pure {a : α} : (pure a : Command σ α).Ends s Q ↔ Q (.ok a) s := Iff.rfl

@[simp] theorem ends_fail {message : String} :
    (fail message : Command σ α).Ends s Q ↔ Q (.error message) s := Iff.rfl

@[simp] theorem ends_query {f : σ → Except String α} : (query f).Ends s Q ↔ Q (f s) s := Iff.rfl

@[simp] theorem ends_modify {f : σ → σ} {Q : Except String Unit → σ → Prop} :
    (modify f).Ends s Q ↔ Q (.ok ()) (f s) := Iff.rfl

@[simp] theorem ends_bind {f : α → Command σ β} {Q : Except String β → σ → Prop} :
    (c >>= f).Ends s Q ↔ c.Ends s fun r s' => match r with
      | .ok a => (f a).Ends s' Q
      | .error e => Q (.error e) s' := by
  have hbind : (c >>= f) s = match c s with
      | (.ok a, s') => f a s'
      | (.error e, s') => (.error e, s') := rfl
  unfold Ends
  rw [hbind]
  cases c s with
  | mk r s' => cases r <;> exact Iff.rfl

theorem Ends.mono {Q' : Except String α → σ → Prop} (h : c.Ends s Q)
    (himp : ∀ r s', Q r s' → Q' r s') : c.Ends s Q' :=
  himp _ _ h

/-! ## Invariants -/

/-- The command keeps `I`, and has a result with `P` where it does not fail. -/
def Keeps (I : σ → Prop) (c : Command σ α) (P : α → Prop) : Prop :=
  ∀ s, I s → c.Ends s fun r s' => I s' ∧ ∀ a, r = .ok a → P a

variable {I : σ → Prop} {P : α → Prop}

theorem keeps_pure {a : α} (h : P a) : Keeps I (pure a) P :=
  fun _ hs => ⟨hs, by rintro _ ⟨⟩; exact h⟩

theorem keeps_fail {message : String} : Keeps I (fail message) P := fun _ hs => ⟨hs, by rintro _ ⟨⟩⟩

theorem keeps_query {f : σ → Except String α} (h : ∀ s, I s → ∀ a, f s = .ok a → P a) :
    Keeps I (query f) P :=
  fun s hs => ⟨hs, h s hs⟩

theorem keeps_modify {f : σ → σ} (h : ∀ s, I s → I (f s)) : Keeps I (modify f) fun _ => True :=
  fun s hs => ⟨h s hs, fun _ _ => trivial⟩

theorem Keeps.bind {f : α → Command σ β} {P' : β → Prop} (hc : Keeps I c P)
    (hf : ∀ a, P a → Keeps I (f a) P') : Keeps I (c >>= f) P' := by
  intro s hs
  refine ends_bind.2 ((hc s hs).mono ?_)
  rintro r s' ⟨hs', hr⟩
  cases r with
  | ok a => exact hf a (hr a rfl) s' hs'
  | error e => exact ⟨hs', by rintro _ ⟨⟩⟩

theorem keeps_query_bind {q : σ → Except String α} {f : α → Command σ β} {P' : β → Prop}
    (hf : ∀ a, Keeps I (f a) P') : Keeps I (query q >>= f) P' :=
  (keeps_query (P := fun _ => True) fun _ _ _ _ => trivial).bind fun a _ => hf a

theorem keeps_each {f : α → Command σ Unit} {as : List α}
    (h : ∀ a ∈ as, Keeps I (f a) fun _ => True) : Keeps I (each f as) fun _ => True := by
  induction as with
  | nil => exact keeps_pure trivial
  | cons a as ih => exact (h a (by simp)).bind fun _ _ => ih fun b hb => h b (by simp [hb])

end Command

end Loadr
