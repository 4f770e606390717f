import Mathlib.Data.List.Forall2

/-!
# Taking the nearest

Each item of a list meets the first of the wants that are left, if it can.  A want is then met by
the first item that fits, and no other choice of items meets more (`greedy_eq_nil_iff`).
-/

open List

variable {α β : Type*} (R : α → β → Bool)

/-- The wants that are left when each item meets the first of them if it can. -/
def greedy (wants : List β) (items : List α) : List β :=
  items.foldl (fun wants a => match wants with
    | [] => []
    | b :: rest => if R a b then rest else b :: rest) wants

theorem greedy_nil (items : List α) : greedy R [] items = [] := by
  induction items with
  | nil => rfl
  | cons a items ih => exact ih

/-- If any choice of items meets the wants in order, taking the first that fits does: it leaves the
other choice all the items it had. -/
theorem greedy_eq_nil_iff {wants : List β} {items : List α} :
    greedy R wants items = [] ↔ ∃ chosen, chosen <+ items ∧ Forall₂ (R · ·) chosen wants := by
  induction items generalizing wants with
  | nil => simp [greedy]
  | cons a items ih =>
    cases wants with
    | nil => simp [greedy_nil]
    | cons b rest =>
      have hstep : greedy R (b :: rest) (a :: items) =
          greedy R (if R a b then rest else b :: rest) items := rfl
      rw [hstep, ih]
      by_cases hab : R a b
      · rw [if_pos hab]
        constructor
        · rintro ⟨chosen, hsub, hall⟩
          exact ⟨a :: chosen, hsub.cons_cons a, .cons hab hall⟩
        · rintro ⟨_, hsub, _ | ⟨-, hall⟩⟩
          exact ⟨_, hsub.tail, hall⟩
      · rw [if_neg hab]
        constructor
        · rintro ⟨chosen, hsub, hall⟩
          exact ⟨chosen, hsub.cons a, hall⟩
        · rintro ⟨_, hsub, hall⟩
          rcases sublist_cons_iff.1 hsub with hsub | ⟨_, rfl, -⟩
          · exact ⟨_, hsub, hall⟩
          · exact absurd (forall₂_cons.1 hall).1 hab
