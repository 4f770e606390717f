import Mathlib.Data.List.Basic
import Mathlib.Order.Lattice

/-!
# Replayed streams of sequence numbers

A receiver keeps the highest sequence number `c` it has consumed and reads a stream that may repeat
numbers it has already seen.  `Covers c l` says that reading `l` from `c` on never skips a number,
and `reach c l` is the number the receiver has then consumed.
-/

namespace Replay

/-- The highest number consumed after reading `l` from `c`. -/
def reach (c : ℕ) (l : List ℕ) : ℕ := l.foldl max c

/-- Reading `l` from `c` never skips a number. -/
def Covers : ℕ → List ℕ → Prop
  | _, [] => True
  | c, x :: l => x ≤ c + 1 ∧ Covers (max c x) l

@[simp] theorem reach_nil (c : ℕ) : reach c [] = c := rfl

@[simp] theorem reach_cons (c x : ℕ) (l : List ℕ) : reach c (x :: l) = reach (max c x) l := rfl

@[simp] theorem covers_nil (c : ℕ) : Covers c [] := trivial

@[simp] theorem covers_cons (c x : ℕ) (l : List ℕ) :
    Covers c (x :: l) ↔ x ≤ c + 1 ∧ Covers (max c x) l := Iff.rfl

theorem reach_append (c : ℕ) (l₁ l₂ : List ℕ) : reach c (l₁ ++ l₂) = reach (reach c l₁) l₂ :=
  List.foldl_append

theorem le_reach (c : ℕ) (l : List ℕ) : c ≤ reach c l := by
  induction l generalizing c with
  | nil => exact le_rfl
  | cons x l ih => exact (le_max_left c x).trans (ih _)

theorem covers_append {c : ℕ} {l₁ l₂ : List ℕ} :
    Covers c (l₁ ++ l₂) ↔ Covers c l₁ ∧ Covers (reach c l₁) l₂ := by
  induction l₁ generalizing c with
  | nil => simp
  | cons x l ih => simp [ih, and_assoc]

theorem Covers.take {c : ℕ} {l : List ℕ} (h : Covers c l) (k : ℕ) : Covers c (l.take k) := by
  rw [← List.take_append_drop k l, covers_append] at h
  exact h.1

end Replay
