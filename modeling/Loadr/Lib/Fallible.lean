import Mathlib.Data.List.Basic

/-!
# Computations that may fail

A computation in `ExceptT ε (StateM σ)` changes a state and may fail.  `Gives m s a t` says that it
succeeds: from the state `s` it ends in `t` with the value `a`.

`Does R m l` says what a successful run does to the state, by a relation that is labelled with a
list of actions: computations in sequence do the actions of both.
-/

namespace Fallible

variable {σ ε α β : Type}

theorem bind_ok_iff {x : Except ε α} {f : α → Except ε β} {b : β} :
    (x >>= f) = .ok b ↔ ∃ a, x = .ok a ∧ f a = .ok b := by
  cases x with
  | error | ok => simp [bind, Except.bind]

theorem pure_ok_iff {a b : α} : (pure a : Except ε α) = .ok b ↔ b = a :=
  ⟨fun h => (Except.ok.inj h).symm, fun h => congrArg Except.ok h.symm⟩

/-- From `s` the computation succeeds in the state `t` with the value `a`. -/
def Gives (m : ExceptT ε (StateM σ) α) (s : σ) (a : α) (t : σ) : Prop := m.run.run s = (.ok a, t)

section Gives

variable {m : ExceptT ε (StateM σ) α} {s t : σ} {a b : α}

@[simp]
theorem gives_pure : Gives (pure b : ExceptT ε (StateM σ) α) s a t ↔ a = b ∧ t = s := by
  change ((.ok b, s) : Except ε α × σ) = (.ok a, t) ↔ a = b ∧ t = s
  rw [Prod.mk.injEq, Except.ok.injEq]
  exact and_congr eq_comm eq_comm

@[simp]
theorem not_gives_throw {e : ε} : ¬ Gives (throw e : ExceptT ε (StateM σ) α) s a t := by
  intro h
  cases congrArg Prod.fst h

theorem gives_mk {g : σ → Except ε α × σ} :
    Gives (ExceptT.mk g : ExceptT ε (StateM σ) α) s a t ↔ g s = (.ok a, t) :=
  Iff.rfl

theorem run_bind (m : ExceptT ε (StateM σ) α) (k : α → ExceptT ε (StateM σ) β) (s : σ) :
    (m >>= k).run.run s = match m.run.run s with
      | (.ok a, t) => (k a).run.run t
      | (.error e, t) => (.error e, t) := by
  rw [ExceptT.run_bind, StateT.run_bind]
  rcases m.run.run s with ⟨_ | a, t⟩ <;> rfl

theorem gives_bind {k : α → ExceptT ε (StateM σ) β} {b : β} :
    Gives (m >>= k) s b t ↔ ∃ a u, Gives m s a u ∧ Gives (k a) u b t := by
  unfold Gives
  rw [run_bind]
  rcases h : m.run.run s with ⟨e | a, u⟩
  · constructor
    · intro hk
      cases congrArg Prod.fst hk
    · rintro ⟨a, u', hm, -⟩
      cases congrArg Prod.fst hm
  · constructor
    · intro hk
      exact ⟨a, u, rfl, hk⟩
    · rintro ⟨a', u', hm, hk⟩
      cases hm
      exact hk

end Gives

/-! ## Labelled effects -/

variable {ι : Type} {R : List ι → σ → σ → Prop}

/-- A relation between states that is labelled with actions in sequence. -/
class Composes (R : List ι → σ → σ → Prop) : Prop where
  nil : ∀ s, R [] s s
  append : ∀ {l l' s t u}, R l s t → R l' t u → R (l ++ l') s u

/-- Invariants compose. -/
instance (P : σ → Prop) : Composes fun (_ : List ι) s t => P s → P t where
  nil _ := id
  append h h' := h' ∘ h

/-- A successful run of the computation does the actions. -/
def Does (R : List ι → σ → σ → Prop) (m : ExceptT ε (StateM σ) α) (l : List ι) : Prop :=
  ∀ s a t, Gives m s a t → R l s t

namespace Does

variable [Composes R] {m : ExceptT ε (StateM σ) α} {l l' : List ι}

theorem pure (a : α) : Does R (pure a : ExceptT ε (StateM σ) α) [] := by
  intro s b t h
  obtain ⟨-, rfl⟩ := gives_pure.1 h
  exact Composes.nil t

omit [Composes R] in
theorem throw (e : ε) (l : List ι) : Does R (throw e : ExceptT ε (StateM σ) α) l :=
  fun _ _ _ h => absurd h not_gives_throw

theorem bind {k : α → ExceptT ε (StateM σ) β} (hm : Does R m l)
    (hk : ∀ a, Does R (k a) l') : Does R (m >>= k) (l ++ l') := by
  intro s b t h
  obtain ⟨a, u, hma, hkb⟩ := gives_bind.1 h
  exact Composes.append (hm s a u hma) (hk a u b t hkb)

theorem bind_pure {k : α → β} (hm : Does R m l) :
    Does R (m >>= fun a => Pure.pure (k a)) l := by
  have h := hm.bind fun a => Does.pure (k a)
  rwa [List.append_nil] at h

theorem mapM {γ : Type} {f : γ → ExceptT ε (StateM σ) α} {g : γ → List ι}
    (hf : ∀ c, Does R (f c) (g c)) (cs : List γ) : Does R (cs.mapM f) (cs.flatMap g) := by
  induction cs with
  | nil => exact Does.pure []
  | cons c cs ih =>
    rw [List.mapM_cons, List.flatMap_cons]
    exact (hf c).bind fun a => ih.bind_pure

end Does

end Fallible
