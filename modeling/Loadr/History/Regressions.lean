import Mathlib.Data.List.Sort
import Mathlib.Data.List.MinMax
import Loadr.Core.Metrics

/-!
# Regressions against the history

`stats.rs` compares a value with the median of earlier runs and their median absolute deviation,
over exact rationals here.  A median is an order statistic, so as long as most entries of the
history are untouched it stays among them (`median_between`).
-/

namespace Loadr.History

open List

open Loadr.Core (MetricKind)

structure Verdict where
  value : ℚ
  median : ℚ
  mad : ℚ
  z : ℚ
  sampleN : ℕ
  regression : Bool
  lowConfidence : Bool
deriving DecidableEq

def median (xs : List ℚ) : ℚ :=
  if xs = [] then 0
  else
    let v := xs.insertionSort (· ≤ ·)
    let n := v.length
    if n % 2 = 1 then v.getD (n / 2) 0 else (v.getD (n / 2 - 1) 0 + v.getD (n / 2) 0) / 2

def mad (xs : List ℚ) (center : ℚ) : ℚ := median (xs.map fun x => |x - center|)

def worseByPct (value median : ℚ) (higherIsWorse : Bool) (pct : ℚ) : Bool :=
  if median = 0 then false
  else if higherIsWorse then median * (1 + pct) < value
  else value < median * (1 - pct)

def detect (value : ℚ) (history : List ℚ) (higherIsWorse : Bool) : Verdict :=
  let n := history.length
  let median := median history
  if n < 5 then
    { value, median, mad := 0, z := 0, sampleN := n,
      regression := 0 < n && worseByPct value median higherIsWorse (1 / 10), lowConfidence := true }
  else
    let mad := mad history median
    if mad = 0 then
      { value, median, mad, z := 0, sampleN := n,
        regression := worseByPct value median higherIsWorse (1 / 10), lowConfidence := false }
    else
      let z := 6745 / 10000 * (value - median) / mad
      { value, median, mad, z, sampleN := n,
        regression := if higherIsWorse then 7 / 2 < z else z < -(7 / 2), lowConfidence := false }

/-! ## Order statistics -/

section

variable {α : Type} [LinearOrder α] {v : List α} {p : α → Bool} {k : ℕ}

theorem exists_le_getElem (hv : v.Pairwise (· ≤ ·)) (hk : k < v.length)
    (h : v.length < v.countP p + (k + 1)) : ∃ x, p x = true ∧ x ≤ v[k] := by
  have hsplit := take_append_drop (k + 1) v
  have hcount : v.countP p = (v.take (k + 1)).countP p + (v.drop (k + 1)).countP p := by
    rw [← countP_append, hsplit]
  have hle := countP_le_length (p := p) (l := v.drop (k + 1))
  rw [length_drop] at hle
  obtain ⟨x, hx, hp⟩ := countP_pos_iff.1 (by omega : 0 < (v.take (k + 1)).countP p)
  obtain ⟨i, hi, rfl⟩ := mem_take_iff_getElem.1 hx
  exact ⟨_, hp, hv.rel_get_of_le (a := ⟨i, by omega⟩) (b := ⟨k, hk⟩) (by simp; omega)⟩

theorem exists_getElem_le (hv : v.Pairwise (· ≤ ·)) (hk : k < v.length) (h : k < v.countP p) :
    ∃ x, p x = true ∧ v[k] ≤ x := by
  have hcount : v.countP p = (v.take k).countP p + (v.drop k).countP p := by
    rw [← countP_append, take_append_drop]
  have hle := countP_le_length (p := p) (l := v.take k)
  rw [length_take] at hle
  obtain ⟨x, hx, hp⟩ := countP_pos_iff.1 (by omega : 0 < (v.drop k).countP p)
  obtain ⟨i, hi, rfl⟩ := mem_drop_iff_getElem.1 hx
  exact ⟨_, hp, hv.rel_get_of_le (a := ⟨k, hk⟩) (b := ⟨k + i, by omega⟩) (by simp)⟩

end

variable {xs ys : List ℚ}

theorem median_perm (h : xs.Perm ys) : median xs = median ys := by
  have hsort : xs.insertionSort (· ≤ ·) = ys.insertionSort (· ≤ ·) :=
    ((perm_insertionSort _ xs).trans
      (h.trans (perm_insertionSort _ ys).symm)).eq_of_pairwise'
      (pairwise_insertionSort _ xs) (pairwise_insertionSort _ ys)
  have hnil : xs = [] ↔ ys = [] := by
    rw [← length_eq_zero_iff, h.length_eq, length_eq_zero_iff]
  simp only [median, hsort, hnil]

/-- If most entries are among `kept`, the median is between two of those. -/
theorem median_between (xs kept : List ℚ) (h : xs.length < 2 * xs.countP (· ∈ kept)) :
    (∃ x ∈ kept, x ≤ median xs) ∧ ∃ x ∈ kept, median xs ≤ x := by
  have hsorted := pairwise_insertionSort (· ≤ ·) xs
  have hperm := perm_insertionSort (· ≤ ·) xs
  rw [← hperm.countP_eq, ← hperm.length_eq] at h
  have hne : xs ≠ [] := by
    rintro rfl
    simp at h
  simp only [median, if_neg hne]
  generalize xs.insertionSort (· ≤ ·) = v at h hsorted
  have hget {k : ℕ} (hk : k < v.length) : v.getD k 0 = v[k] := by
    rw [getD_eq_getElem?_getD, getElem?_eq_getElem hk, Option.getD_some]
  have hmid : v.length / 2 < v.length := by
    have := countP_le_length (p := (· ∈ kept)) (l := v)
    omega
  obtain ⟨y, hy, hmidy⟩ := exists_getElem_le (p := (· ∈ kept)) hsorted hmid (by omega)
  rw [hget hmid]
  split_ifs with hodd
  · obtain ⟨x, hx, hxmid⟩ := exists_le_getElem (p := (· ∈ kept)) hsorted hmid (by omega)
    exact ⟨⟨x, of_decide_eq_true hx, hxmid⟩, y, of_decide_eq_true hy, hmidy⟩
  · have hlow : v.length / 2 - 1 < v.length := by omega
    obtain ⟨x, hx, hxlow⟩ := exists_le_getElem (p := (· ∈ kept)) hsorted hlow (by omega)
    have hstep : v[v.length / 2 - 1] ≤ v[v.length / 2] :=
      hsorted.rel_get_of_le (a := ⟨_, hlow⟩) (b := ⟨_, hmid⟩) (by simp)
    rw [hget hlow]
    exact ⟨⟨x, of_decide_eq_true hx, by linarith⟩, y, of_decide_eq_true hy, by linarith⟩

/-! ## Verdicts -/

def isWorse (higherIsWorse : Bool) (value other : ℚ) : Prop :=
  if higherIsWorse then other < value else value < other

theorem median_nonneg (h : ∀ x ∈ xs, 0 ≤ x) : 0 ≤ median xs := by
  rcases eq_or_ne xs [] with rfl | hne
  · rfl
  · have hall : xs.countP (· ∈ xs) = xs.length := countP_eq_length.2 (by simp)
    have hpos := length_pos_iff.2 hne
    obtain ⟨⟨x, hx, hle⟩, -⟩ := median_between xs xs (by omega)
    exact (h x hx).trans hle

theorem worseByPct_mono {higherIsWorse : Bool} {v w center pct : ℚ}
    (h : isWorse higherIsWorse w v) (hv : worseByPct v center higherIsWorse pct = true) :
    worseByPct w center higherIsWorse pct = true := by
  unfold worseByPct at hv ⊢
  split_ifs at hv ⊢ <;> simp_all [isWorse] <;> linarith

theorem detect_mono {higherIsWorse : Bool} {v w : ℚ} (h : isWorse higherIsWorse w v)
    (hv : (detect v xs higherIsWorse).regression = true) :
    (detect w xs higherIsWorse).regression = true := by
  have hmad : 0 ≤ mad xs (median xs) := median_nonneg (by simp)
  have hz (hne : mad xs (median xs) ≠ 0) {a b : ℚ} (hab : a < b) :
      6745 / 10000 * (a - median xs) / mad xs (median xs) <
        6745 / 10000 * (b - median xs) / mad xs (median xs) :=
    div_lt_div_of_pos_right (by linarith) (lt_of_le_of_ne hmad (Ne.symm hne))
  unfold detect at hv ⊢
  dsimp only at hv ⊢
  split_ifs at hv ⊢ with hn hzero hhigher
  · rw [Bool.and_eq_true_iff] at hv ⊢
    exact ⟨hv.1, worseByPct_mono h hv.2⟩
  · exact worseByPct_mono h hv
  · subst hhigher
    exact decide_eq_true ((of_decide_eq_true hv).trans (hz hzero h))
  · rw [Bool.not_eq_true] at hhigher
    subst hhigher
    exact decide_eq_true ((hz hzero h).trans (of_decide_eq_true hv))

abbrev Replaced := List (ℚ × Option ℚ)

def Replaced.history (entries : Replaced) : List ℚ := entries.map fun e => e.2.getD e.1

def Replaced.untouched (entries : Replaced) : List ℚ := (entries.filter (·.2 = none)).map (·.1)

theorem Replaced.most_untouched (entries : Replaced)
    (h : 2 * entries.countP (·.2.isSome) < entries.length) :
    entries.history.length < 2 * entries.history.countP (· ∈ entries.untouched) := by
  have hsplit := length_eq_countP_add_countP (p := fun e : ℚ × Option ℚ => e.2.isSome)
    (l := entries)
  have hkept : entries.countP (fun e => !e.2.isSome) ≤
      entries.countP ((· ∈ entries.untouched) ∘ fun e => e.2.getD e.1) := by
    refine countP_mono_left fun e he hnone => ?_
    have hnone : e.2 = none := by simpa using hnone
    refine decide_eq_true (mem_map.2 ⟨e, mem_filter.2 ⟨he, by simpa using hnone⟩, ?_⟩)
    simp [hnone]
  rw [history, length_map, countP_map]
  simp only [Bool.not_eq_true, Bool.decide_eq_false] at hsplit
  omega

/-- The verdict does not depend on the order of the history, a worse value is flagged if a value is,
and less than half of the history cannot move the median or its deviation beyond the rest. -/
theorem detect_robust (higherIsWorse : Bool) :
    (∀ value xs ys, xs.Perm ys → detect value xs higherIsWorse = detect value ys higherIsWorse) ∧
    (∀ v w xs, isWorse higherIsWorse w v → (detect v xs higherIsWorse).regression = true →
      (detect w xs higherIsWorse).regression = true) ∧
    ∀ entries : Replaced, 2 * entries.countP (·.2.isSome) < entries.length →
      let m := median entries.history
      entries.untouched.minimum ≤ (m : WithTop ℚ) ∧ (m : WithBot ℚ) ≤ entries.untouched.maximum ∧
      (mad entries.history m : WithBot ℚ) ≤ (entries.untouched.map fun x => |x - m|).maximum := by
  refine ⟨fun value xs ys h => ?_, fun v w xs h hv => detect_mono h hv, fun entries h => ?_⟩
  · have hmad (c : ℚ) : mad xs c = mad ys c := median_perm (h.map _)
    simp only [detect, h.length_eq, median_perm h, hmad]
  · have hmost := entries.most_untouched h
    obtain ⟨⟨x, hx, hxm⟩, y, hy, hmy⟩ := median_between _ _ hmost
    have hdevs : (entries.history.map fun x => |x - median entries.history|).length <
        2 * (entries.history.map fun x => |x - median entries.history|).countP
          (· ∈ entries.untouched.map fun x => |x - median entries.history|) := by
      rw [length_map, countP_map]
      refine hmost.trans_le (Nat.mul_le_mul_left 2 (countP_mono_left fun z _ hz => ?_))
      exact decide_eq_true (mem_map_of_mem (of_decide_eq_true hz))
    obtain ⟨-, d, hd, hmd⟩ := median_between _ _ hdevs
    exact ⟨(minimum_le_of_mem' hx).trans (WithTop.coe_le_coe.2 hxm),
      (WithBot.coe_le_coe.2 hmy).trans (le_maximum_of_mem' hy),
      (WithBot.coe_le_coe.2 hmd).trans (le_maximum_of_mem' hd)⟩

theorem detect_robust_outlier :
    let entries : Replaced := [(1, none), (2, none), (3, some 1000)]
    let m := median entries.history
    2 * entries.countP (·.2.isSome) < entries.length ∧ entries.history = [1, 2, 1000] ∧
      entries.untouched.minimum ≤ (m : WithTop ℚ) ∧ (m : WithBot ℚ) ≤ entries.untouched.maximum ∧
      (mad entries.history m : WithBot ℚ) ≤ (entries.untouched.map fun x => |x - m|).maximum :=
  ⟨by decide, by decide, (detect_robust true).2.2 _ (by decide)⟩

/-! ## The gate of the run history -/

def higherIsWorse (metric field : String) : Bool :=
  !(field = "rps" || field = "per_second" || metric = "http_reqs" || metric = "iterations")

/-- Whether a higher value is worse, for what the compare command gates: latencies, error rates and
the pass rate of checks. -/
def gatedDirection (kind : MetricKind) (metric field : String) : Option Bool :=
  match kind, field with
  | .trend, "p50" | .trend, "p95" | .trend, "p99" | .trend, "avg" => some true
  | .rate, "rate" =>
    if metric = "checks" then some false
    else if metric.contains "failed" || metric.contains "error" then some true
    else none
  | _, _ => none

/-- Values that are worse by more than a tenth are flagged, and none that is not worse. -/
def Gates (higherIsWorse flagHigher : Bool) (history : List ℚ) (v₀ : ℚ) : Prop :=
  ∀ value, (isWorse higherIsWorse value (if higherIsWorse then v₀ + v₀ / 10 else v₀ - v₀ / 10) →
      (detect value history flagHigher).regression = true) ∧
    (¬isWorse higherIsWorse value v₀ → (detect value history flagHigher).regression = false)

theorem median_replicate {n : ℕ} (hn : 0 < n) (v : ℚ) : median (.replicate n v) = v := by
  obtain ⟨⟨x, hx, hxm⟩, y, hy, hmy⟩ :=
    median_between (.replicate n v) [v] (by simp [countP_replicate, hn])
  rw [mem_singleton] at hx hy
  subst hx hy
  exact le_antisymm hmy hxm

theorem detect_replicate {n : ℕ} (hn : 0 < n) (value v₀ : ℚ) (flagHigher : Bool) :
    (detect value (.replicate n v₀) flagHigher).regression =
      worseByPct value v₀ flagHigher (1 / 10) := by
  have hmad : mad (.replicate n v₀) v₀ = 0 := by
    rw [mad, map_replicate, median_replicate hn, sub_self, abs_zero]
  simp only [detect, length_replicate, median_replicate hn, hmad, if_true]
  split_ifs <;> simp [hn]

/-- Over a history of equal values the gate is right exactly if they are not zero and the direction
taken from the names is that of the metric. -/
theorem gates_iff {kind : MetricKind} {metric field : String} {higher : Bool} {v₀ : ℚ} {n : ℕ}
    (hkind : gatedDirection kind metric field = some higher) (hv₀ : 0 ≤ v₀) (hn : 0 < n) :
    Gates higher (higherIsWorse metric field) (.replicate n v₀) v₀ ↔
      v₀ ≠ 0 ∧ higherIsWorse metric field = higher := by
  simp only [Gates, detect_replicate hn]
  generalize higherIsWorse metric field = flagHigher
  constructor
  · intro h
    have hne : v₀ ≠ 0 := by
      rintro rfl
      cases higher with
      | false => cases (h (-1)).1 (by norm_num [isWorse])
      | true => cases (h 1).1 (by norm_num [isWorse])
    have hpos : 0 < v₀ := lt_of_le_of_ne hv₀ (Ne.symm hne)
    refine ⟨hne, ?_⟩
    -- a value that is better would be flagged
    cases higher <;> cases flagHigher <;> try rfl
    · have hbetter := (h (2 * v₀)).2 (by simp [isWorse]; linarith)
      simp [worseByPct, hne] at hbetter
      linarith
    · have hbetter := (h 0).2 (by simp [isWorse]; linarith)
      simp [worseByPct, hne] at hbetter
      linarith
  · rintro ⟨hne, rfl⟩ value
    simp only [worseByPct, if_neg hne, isWorse]
    cases flagHigher <;> simp <;> constructor <;> intro hvalue <;> linarith

theorem gates_latency :
    Gates true (higherIsWorse "http_req_duration" "p95") (.replicate 5 100) 100 :=
  have hkind : gatedDirection .trend "http_req_duration" "p95" = some true := by decide +kernel
  (gates_iff hkind (by norm_num) (by decide)).2 ⟨by norm_num, by decide +kernel⟩

/-- A pass rate that halves is not flagged, nor is the first error after none. -/
theorem gates_inverted :
    ¬Gates false (higherIsWorse "checks" "rate") (.replicate 3 1) 1 ∧
      ¬Gates true (higherIsWorse "http_req_failed" "rate") (.replicate 5 0) 0 := by
  constructor
  · intro h
    exact absurd ((h (1 / 2)).1 (by norm_num [isWorse])) (by decide +kernel)
  · intro h
    exact absurd ((h 1).1 (by norm_num [isWorse])) (by decide +kernel)

end Loadr.History
