import Mathlib.Algebra.Order.Field.Basic
import Mathlib.Data.List.Pairwise
import Mathlib.Tactic.Linarith

/-!
# Spaced times

Times of which each is at least a given span after every earlier one.  Few of them fit into a
window: `n + 1` of them take `n` spans.  So do the starts of several workers, where each starts
again only a span after its last start.
-/

/-- Each time is at least `d` after every earlier one. -/
def Spaced {α : Type*} [Add α] [LE α] (d : α) (times : List α) : Prop :=
  times.Pairwise fun x y => x + d ≤ y

namespace Spaced

variable {α : Type*} [AddCommMonoid α] [PartialOrder α] [IsOrderedAddMonoid α] {d : α}
  {times : List α}

theorem append_singleton {y : α} (h : Spaced d times) (hy : ∀ x ∈ times, x + d ≤ y) :
    Spaced d (times ++ [y]) := by
  refine List.pairwise_append.2 ⟨h, List.pairwise_singleton _ y, ?_⟩
  intro x hx z hz
  rw [List.mem_singleton.1 hz]
  exact hy x hx

theorem filter (h : Spaced d times) (p : α → Bool) : Spaced d (times.filter p) :=
  List.Pairwise.filter p h

theorem add_nsmul_le {x b : α} (h : Spaced d (x :: times)) (hb : ∀ y ∈ x :: times, y ≤ b) :
    x + times.length • d ≤ b := by
  induction times generalizing x with
  | nil => simpa using hb x (by simp)
  | cons y times ih =>
    have hxy : x + d ≤ y := List.rel_of_pairwise_cons h (by simp)
    have hrest := ih (List.Pairwise.of_cons h) fun z hz => hb z (List.mem_cons_of_mem x hz)
    calc x + (y :: times).length • d
        = x + d + times.length • d := by rw [List.length_cons, succ_nsmul', add_assoc]
      _ ≤ y + times.length • d := by gcongr
      _ ≤ b := hrest

end Spaced

/-- A window of length `w` that is closed at both ends. -/
def inWindow (a w x : ℕ) : Bool := a ≤ x && x ≤ a + w

theorem Spaced.length_window {d : ℕ} {times : List ℕ} (h : Spaced d times) (hd : 0 < d)
    (a w : ℕ) : (times.filter (inWindow a w)).length ≤ w / d + 1 := by
  have hspaced := h.filter (inWindow a w)
  have hmem : ∀ x ∈ times.filter (inWindow a w), a ≤ x ∧ x ≤ a + w := by
    intro x hx
    simpa [inWindow] using (List.mem_filter.1 hx).2
  cases hl : times.filter (inWindow a w) with
  | nil => simp
  | cons x rest =>
    rw [hl] at hspaced hmem
    have hend := hspaced.add_nsmul_le fun y hy => (hmem y hy).2
    have hstart := (hmem x (by simp)).1
    have hspan : rest.length * d ≤ w := by
      rw [Nat.nsmul_eq_mul] at hend
      omega
    rw [List.length_cons]
    exact Nat.add_le_add_right ((Nat.le_div_iff_mul_le hd).2 hspan) 1

/-! ## Several workers -/

section Workers

variable {d : ℚ} {times : List ℚ}

theorem Spaced.length_le (h : Spaced d times) (hd : 0 < d) {t : ℚ} (ht : 0 ≤ t)
    (hmem : ∀ x ∈ times, 0 ≤ x ∧ x ≤ t) : (times.length : ℚ) ≤ t / d + 1 := by
  cases times with
  | nil =>
    have : 0 ≤ t / d := by positivity
    simpa using by linarith
  | cons x rest =>
    have hend := h.add_nsmul_le fun y hy => (hmem y hy).2
    have hstart := (hmem x (by simp)).1
    rw [nsmul_eq_mul] at hend
    have hspan : (rest.length : ℚ) ≤ t / d := (le_div_iff₀ hd).2 (by linarith)
    rw [List.length_cons, Nat.cast_succ]
    linarith

structure Start where
  worker : ℕ
  time : ℕ
deriving DecidableEq

def startsOf (j : ℕ) (starts : List Start) : List ℚ :=
  (starts.filter (·.worker = j)).map fun x => x.time

theorem countP_worker_le {starts : List Start} {j : ℕ} (h : Spaced d (startsOf j starts))
    (hd : 0 < d) (t : ℕ) :
    (starts.countP (fun x => x.worker = j ∧ x.time ≤ t) : ℚ) ≤ t / d + 1 := by
  have hlength : ((startsOf j starts).filter (· ≤ (t : ℚ))).length =
      starts.countP fun x => x.worker = j ∧ x.time ≤ t := by
    rw [startsOf, List.filter_map, List.length_map, List.filter_filter,
      List.countP_eq_length_filter]
    congr 2
    funext x
    simp [Bool.and_comm]
  rw [← hlength]
  refine (h.filter _).length_le hd (Nat.cast_nonneg t) fun x hx => ?_
  obtain ⟨hx, hle⟩ := List.mem_filter.1 hx
  obtain ⟨y, -, rfl⟩ := List.mem_map.1 hx
  exact ⟨Nat.cast_nonneg _, by simpa using hle⟩

theorem countP_lt_succ (starts : List Start) (n t : ℕ) :
    starts.countP (fun x => x.worker < n + 1 ∧ x.time ≤ t) =
      starts.countP (fun x => x.worker < n ∧ x.time ≤ t) +
        starts.countP (fun x => x.worker = n ∧ x.time ≤ t) := by
  induction starts with
  | nil => rfl
  | cons x starts ih =>
    simp only [List.countP_cons, ih, decide_eq_true_eq]
    split_ifs <;> omega

/-- How often workers can have started up to `t`. -/
theorem countP_starts_le {starts : List Start} (hd : 0 < d)
    (h : ∀ j, Spaced d (startsOf j starts)) {n : ℕ} (hworker : ∀ x ∈ starts, x.worker < n) (t : ℕ) :
    (starts.countP (·.time ≤ t) : ℚ) ≤ n * (t / d + 1) := by
  have hall : starts.countP (·.time ≤ t) = starts.countP fun x => x.worker < n ∧ x.time ≤ t :=
    List.countP_congr fun x hx => by simp [hworker x hx]
  rw [hall]
  clear hall hworker
  induction n with
  | zero => simp
  | succ n ih =>
    have hn := countP_worker_le (h n) hd t
    rw [countP_lt_succ, Nat.cast_add, Nat.cast_succ]
    linarith

end Workers
