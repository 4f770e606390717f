import Mathlib.Algebra.BigOperators.Group.Finset.Piecewise

/-!
# Ledgers

Every node of a tree has a multiset of what it was given and a part of it that it has not sent on.
`forward` sends that part to the parent.  What was deposited is with the root or unsent at some
other node (`Sound`), so once every node is forwarded after its children the root has it all
(`Sound.held_root`).
-/

open Function Multiset

/-- What the nodes were given, and what they have not sent on of it. -/
structure Ledger (κ α : Type*) where
  held : κ → Multiset α
  unsent : κ → Multiset α

namespace Ledger

open Finset Option List

variable {κ α : Type*} [DecidableEq κ] {parent : κ → Option κ} {L : Ledger κ α} {i j : κ}

def empty : Ledger κ α := ⟨fun _ => 0, fun _ => 0⟩

def deposit (i : κ) (x : α) (L : Ledger κ α) : Ledger κ α where
  held := update L.held i (x ::ₘ L.held i)
  unsent := update L.unsent i (x ::ₘ L.unsent i)

def forward (parent : κ → Option κ) (L : Ledger κ α) (i : κ) : Ledger κ α :=
  match parent i with
  | none => L
  | some p =>
    { held := update L.held p (L.held p + L.unsent i)
      unsent := update (update L.unsent p (L.unsent p + L.unsent i)) i 0 }

/-- The part of a node in what was deposited. -/
def share (parent : κ → Option κ) (L : Ledger κ α) (i : κ) : Multiset α :=
  match parent i with
  | none => L.held i
  | some _ => L.unsent i

/-- A node has sent on only what its parent was given, and nothing of `all` is lost. -/
structure Sound [Fintype κ] (parent : κ → Option κ) (all : Multiset α) (L : Ledger κ α) : Prop where
  sent : ∀ c p, parent c = some p → L.held c ≤ L.held p + L.unsent c
  conserved : ∑ i, L.share parent i = all

/-- Nothing is unsent but at the root. -/
def Settled (parent : κ → Option κ) (L : Ledger κ α) : Prop := ∀ i, parent i ≠ none → L.unsent i = 0

theorem le_held_deposit (i j : κ) (x : α) : L.held j ≤ (L.deposit i x).held j := by
  by_cases h : j = i
  · subst h
    simp [deposit, le_cons_self]
  · simp [deposit, h]

theorem le_held_forward (i j : κ) : L.held j ≤ (L.forward parent i).held j := by
  unfold forward
  cases parent i with
  | none => exact le_rfl
  | some p =>
    by_cases h : j = p
    · subst h
      simp [Multiset.zero_le]
    · simp [h]

theorem share_deposit (i : κ) (x : α) : (L.deposit i x).share parent =
    update (L.share parent) i (x ::ₘ L.share parent i) := by
  funext j
  by_cases h : j = i
  · subst h
    rw [update_self]
    unfold share
    cases parent j <;> simp [deposit]
  · rw [update_of_ne h]
    unfold share
    cases parent j <;> simp [deposit, h]

theorem share_forward {p : κ} (hp : parent i = some p) (hne : p ≠ i) :
    (L.forward parent i).share parent =
      update (update (L.share parent) p (L.share parent p + L.unsent i)) i 0 := by
  funext j
  by_cases hi : j = i
  · subst hi
    simp [share, forward, hp]
  · rw [update_of_ne hi]
    by_cases hj : j = p
    · subst hj
      rw [update_self]
      unfold share
      cases parent j <;> simp [forward, hp, hne]
    · rw [update_of_ne hj]
      unfold share
      cases parent j <;> simp [forward, hp, hi, hj]

/-! ## Soundness -/

section Sound

variable [Fintype κ] {all : Multiset α}

theorem sum_update (f : κ → Multiset α) (i : κ) (x : Multiset α) :
    ∑ j, update f i x j + f i = ∑ j, f j + x := by
  rw [sum_update_of_mem (mem_univ i),
    sum_eq_add_sum_sdiff_singleton_of_mem (mem_univ i) f]
  ac_rfl

omit [DecidableEq κ] in
theorem sound_empty : (empty : Ledger κ α).Sound parent 0 where
  sent _ _ _ := zero_le _
  conserved := by
    refine Finset.sum_eq_zero fun i _ => ?_
    unfold share
    cases parent i <;> rfl

theorem Sound.deposit (h : L.Sound parent all) (i : κ) (x : α) :
    (L.deposit i x).Sound parent (x ::ₘ all) where
  sent c p hp := by
    have hle := (h.sent c p hp).trans (add_le_add_left (le_held_deposit i p x) _)
    by_cases hc : c = i
    · subst hc
      simpa [Ledger.deposit] using cons_le_cons x hle
    · simpa [Ledger.deposit, hc] using hle
  conserved := by
    have hsum := sum_update (L.share parent) i (x ::ₘ L.share parent i)
    rw [← share_deposit, h.conserved, add_cons, ← cons_add] at hsum
    exact add_right_cancel hsum

theorem Sound.forward (h : L.Sound parent all) (hne : parent i ≠ some i) :
    (L.forward parent i).Sound parent all := by
  cases hp : parent i with
  | none => simpa [Ledger.forward, hp] using h
  | some p =>
    have hpi : p ≠ i := fun heq => hne (heq ▸ hp)
    constructor
    · intro c q hq
      have hmono : L.held q ≤ (L.forward parent i).held q := le_held_forward i q
      have hle := (h.sent c q hq).trans (add_le_add_left hmono _)
      by_cases hc : c = i
      · subst hc
        obtain rfl : p = q := some.inj (hp.symm.trans hq)
        simpa [Ledger.forward, hp, hpi.symm] using h.sent c p hp
      · by_cases hcp : c = p
        · subst hcp
          have hheld : (L.forward parent i).held c = L.held c + L.unsent i := by
            simp [Ledger.forward, hp]
          have hunsent : (L.forward parent i).unsent c = L.unsent c + L.unsent i := by
            simp [Ledger.forward, hp, hc]
          rw [hheld, hunsent, ← add_assoc]
          exact add_le_add_left hle _
        · simpa [Ledger.forward, hp, hc, hcp] using hle
    · have hmoved := sum_update (L.share parent) p (L.share parent p + L.unsent i)
      have hemptied := sum_update (update (L.share parent) p (L.share parent p + L.unsent i)) i 0
      have hshare : L.share parent i = L.unsent i := by simp [share, hp]
      rw [← share_forward hp hpi, update_of_ne hpi.symm, hshare, add_zero] at hemptied
      rw [← hemptied, h.conserved, add_assoc, add_comm (L.unsent i)] at hmoved
      exact add_right_cancel hmoved

omit [DecidableEq κ] in
theorem Sound.held_root (h : L.Sound parent all) {r : κ} (hroot : ∀ i, parent i = none ↔ i = r)
    (hsettled : L.Settled parent) : L.held r = all := by
  have hr : L.share parent r = L.held r := by simp [share, (hroot r).2 rfl]
  rw [← h.conserved, ← hr]
  refine (sum_eq_single r (fun i _ hi => ?_) fun h => absurd (mem_univ r) h).symm
  have hsome : parent i ≠ none := fun hnone => hi ((hroot i).1 hnone)
  obtain ⟨p, hp⟩ := ne_none_iff_exists'.1 hsome
  simpa [share, hp] using hsettled i hsome

end Sound

/-! ## Forwarding bottom up -/

theorem unsent_forward_self (h : parent i ≠ none) : (L.forward parent i).unsent i = 0 := by
  obtain ⟨p, hp⟩ := ne_none_iff_exists'.1 h
  simp [forward, hp]

theorem unsent_forward_of_ne (hi : L.unsent j = 0) (h : parent i ≠ some j) :
    (L.forward parent i).unsent j = 0 := by
  unfold forward
  cases hp : parent i with
  | none => exact hi
  | some p =>
    have hne : j ≠ p := fun heq => h (heq ▸ hp)
    by_cases hji : j = i
    · subst hji
      simp
    · simpa [hne, hji] using hi

theorem unsent_forwards_of_ne {order : List κ} (hj : L.unsent j = 0)
    (h : ∀ i ∈ order, parent i ≠ some j) : (order.foldl (forward parent) L).unsent j = 0 := by
  induction order generalizing L with
  | nil => exact hj
  | cons i order ih =>
    obtain ⟨hi, hrest⟩ := forall_mem_cons.1 h
    exact ih (unsent_forward_of_ne hj hi) hrest

theorem unsent_forwards {order : List κ} (h : order.Pairwise fun i j => parent j ≠ some i)
    (hj : j ∈ order) (hsome : parent j ≠ none) :
    (order.foldl (forward parent) L).unsent j = 0 := by
  induction order generalizing L with
  | nil => cases hj
  | cons i order ih =>
    obtain ⟨hi, hrest⟩ := pairwise_cons.1 h
    rcases mem_cons.1 hj with rfl | hj
    · rw [List.foldl_cons]
      exact unsent_forwards_of_ne (unsent_forward_self hsome) hi
    · exact ih hrest hj

theorem Settled.forward (h : L.Settled parent) (i : κ) : (L.forward parent i).Settled parent := by
  intro j hj
  cases hp : parent i with
  | none => simpa [Ledger.forward, hp] using h j hj
  | some p =>
    have hi : L.unsent i = 0 := h i (by simp [hp])
    by_cases hji : j = i
    · subst hji
      exact unsent_forward_self hj
    · by_cases hjp : j = p
      · subst hjp
        simpa [Ledger.forward, hp, hji, hi] using h j hj
      · exact unsent_forward_of_ne (h j hj) fun heq => hjp (some.inj (heq.symm.trans hp))

end Ledger
