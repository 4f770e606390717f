import Mathlib.Data.Rat.BigOperators
import Loadr.Executor.Partition

/-!
# Ramps across a fleet

`vus_at` is the number of VUs a ramping executor aims at.  Each agent of a distributed run ramps
between its own shares of the targets and rounds for itself.  The fleet meets the plan where the
rounding of the agents adds up to nothing (`Leg.Exact`).
-/

namespace Loadr

open Finset Option

/-! ## Interpolation -/

/-- `f64::round`, with halves away from zero. -/
def roundAway (x : ℚ) : ℤ := if 0 ≤ x then ⌊x + 1 / 2⌋ else -⌊-x + 1 / 2⌋

def asSecs (d : ℕ) : ℚ := d / 10 ^ 9

def interpolate (t : ℕ) : ℚ → ℕ → List (ℕ × ℕ) → Option ℚ
  | _, _, [] => none
  | source, offset, (len, target) :: stages =>
    if t < offset + len then
      let progress := asSecs (t - offset) / max (asSecs len) (1 / 10 ^ 9)
      some (source + (target - source) * progress)
    else interpolate t target (offset + len) stages

def lastTarget (startVus : ℕ) (stages : List (ℕ × ℕ)) : ℕ :=
  (stages.getLast?.map (·.2)).getD startVus

/-- The VU target at time `t`, across the stages. -/
def vusAt (startVus : ℕ) (stages : List (ℕ × ℕ)) (t : ℕ) : ℕ :=
  match interpolate t startVus 0 stages with
  | some x => (roundAway x).toNat
  | none => lastTarget startVus stages

/-- What a ramping executor aims at; the others do not ramp. -/
def ExecutorSpec.target (t : ℕ) : ExecutorSpec → ℕ
  | .rampingVus startVus stages => vusAt startVus stages t
  | _ => 0

/-! ## Legs -/

/-- Where a ramp is: between which targets, and how far it has come. -/
structure Leg where
  source : ℕ
  target : ℕ
  progress : ℚ

def legAt (t : ℕ) : ℕ → ℕ → List (ℕ × ℕ) → Option Leg
  | _, _, [] => none
  | source, offset, (len, target) :: stages =>
    if t < offset + len then
      some ⟨source, target, asSecs (t - offset) / max (asSecs len) (1 / 10 ^ 9)⟩
    else legAt t target (offset + len) stages

def Leg.value (s : Leg) : ℚ := s.source + (s.target - s.source) * s.progress

theorem interpolate_eq (t source offset : ℕ) (stages : List (ℕ × ℕ)) :
    interpolate t source offset stages = (legAt t source offset stages).map Leg.value := by
  induction stages generalizing source offset with
  | nil => rfl
  | cons stage stages ih =>
    simp only [interpolate, legAt]
    split
    · rfl
    · exact ih _ _

theorem progress_mem {t source offset : ℕ} {stages : List (ℕ × ℕ)} {s : Leg}
    (h : legAt t source offset stages = some s) : 0 ≤ s.progress ∧ s.progress ≤ 1 := by
  induction stages generalizing source offset with
  | nil => cases h
  | cons stage stages ih =>
    simp only [legAt] at h
    split at h
    · rename_i ht
      cases h
      have hlen : (0 : ℚ) < max (asSecs stage.1) (1 / 10 ^ 9) := lt_max_of_lt_right (by norm_num)
      have hle : asSecs (t - offset) ≤ max (asSecs stage.1) (1 / 10 ^ 9) := by
        refine le_max_of_le_left ?_
        have hnat : t - offset ≤ stage.1 := by omega
        unfold asSecs
        gcongr
      exact ⟨div_nonneg (by unfold asSecs; positivity) hlen.le, (div_le_one hlen).2 hle⟩
    · exact ih h

theorem roundAway_eq_round {x : ℚ} (h : 0 ≤ x) : roundAway x = round x := by
  rw [roundAway, if_pos h, round_eq]

theorem vusAt_eq_round {startVus t : ℕ} {stages : List (ℕ × ℕ)} {s : Leg}
    (h : legAt t startVus 0 stages = some s) :
    (vusAt startVus stages t : ℤ) = round s.value := by
  obtain ⟨h₀, h₁⟩ := progress_mem h
  have hvalue : 0 ≤ s.value := by
    -- a point between two numbers that are not negative
    have hsource := mul_nonneg (Nat.cast_nonneg (α := ℚ) s.source) (sub_nonneg.2 h₁)
    have htarget := mul_nonneg (Nat.cast_nonneg (α := ℚ) s.target) h₀
    unfold Leg.value
    linarith
  have hround : 0 ≤ round s.value := by
    rw [round_eq]
    exact Int.floor_nonneg.2 (by linarith)
  rw [vusAt, interpolate_eq, h, Option.map_some]
  simp only
  rw [roundAway_eq_round hvalue, Int.toNat_of_nonneg hround]

/-! ## Shares of a stage -/

def splitStages (i n : ℕ) (stages : List (ℕ × ℕ)) : List (ℕ × ℕ) :=
  stages.map fun (d, t) => (d, split i n t)

namespace Leg

def share (i n : ℕ) (s : Leg) : Leg := ⟨split i n s.source, split i n s.target, s.progress⟩

/-- What every agent is at, apart from the remainders. -/
def base (n : ℕ) (s : Leg) : ℚ :=
  (s.source / n : ℕ) * (1 - s.progress) + (s.target / n : ℕ) * s.progress

/-- The agents that have one VU more at both ends of the stage. -/
def low (n : ℕ) (s : Leg) : ℕ := min (s.source % n) (s.target % n)

/-- The agents that have one VU more at some end of the stage. -/
def high (n : ℕ) (s : Leg) : ℕ := max (s.source % n) (s.target % n)

/-- How much of that VU the agents have that gain it, or give it up, over the stage. -/
def part (n : ℕ) (s : Leg) : ℚ :=
  if s.source % n ≤ s.target % n then s.progress else 1 - s.progress

def excess (n : ℕ) (s : Leg) : ℚ := s.base n - round (s.base n)

/-- What rounding makes of their part. -/
def carry (n : ℕ) (s : Leg) : ℤ := if s.excess n + s.part n < 1 / 2 then 0 else 1

/-- Rounding moves the agents together by less than one half: each by the excess of the base, and
the agents from `low` to `high` by what their part is off. -/
def Exact (n : ℕ) (s : Leg) : Prop :=
  -1 / 2 ≤ n * s.excess n + (s.high n - s.low n) * (s.part n - s.carry n) ∧
    n * s.excess n + (s.high n - s.low n) * (s.part n - s.carry n) < 1 / 2

instance (n : ℕ) (s : Leg) : Decidable (s.Exact n) := instDecidableAnd

variable {n : ℕ}

theorem value_eq (n : ℕ) (s : Leg) :
    s.value = n * s.base n + s.low n + (s.high n - s.low n) * s.part n := by
  have hsource : (s.source : ℚ) = n * (s.source / n : ℕ) + (s.source % n : ℕ) := by
    exact_mod_cast (Nat.div_add_mod s.source n).symm
  have htarget : (s.target : ℚ) = n * (s.target / n : ℕ) + (s.target % n : ℕ) := by
    exact_mod_cast (Nat.div_add_mod s.target n).symm
  unfold value base low high part
  split_ifs with h
  · rw [min_eq_left h, max_eq_right h, hsource, htarget]
    ring
  · rw [min_eq_right (le_of_not_ge h), max_eq_left (le_of_not_ge h), hsource, htarget]
    ring

theorem share_value (i n : ℕ) (s : Leg) : (s.share i n).value =
    s.base n + if i < s.low n then 1 else if i < s.high n then s.part n else 0 := by
  unfold value share base low high part split
  push_cast
  split_ifs <;> first | omega | ring

/-- The agents below `low` round like the base, and `carry` decides for those up to `high`. -/
theorem round_share (i : ℕ) {s : Leg} (h₀ : 0 ≤ s.progress) (h₁ : s.progress ≤ 1) :
    round (s.share i n).value =
      round (s.base n) + if i < s.low n then 1 else if i < s.high n then s.carry n else 0 := by
  rw [share_value]
  split_ifs
  · exact round_add_one _
  · have hpart : 0 ≤ s.part n ∧ s.part n ≤ 1 := by
      unfold part
      split_ifs <;> constructor <;> linarith
    have hexcess : -1 / 2 ≤ s.excess n ∧ s.excess n < 1 / 2 := by
      obtain ⟨hle, hlt⟩ := round_eq_iff.1 (rfl : round (s.base n) = _)
      unfold excess
      constructor <;> linarith
    have hbase : s.base n = round (s.base n) + s.excess n := by
      unfold excess
      ring
    unfold carry
    rw [round_eq_iff]
    split_ifs <;> push_cast <;> constructor <;> linarith
  · rw [add_zero, add_zero]

theorem sum_round_share (hn : 0 < n) {s : Leg} (h₀ : 0 ≤ s.progress) (h₁ : s.progress ≤ 1) :
    ∑ i ∈ Finset.range n, round (s.share i n).value =
      n * round (s.base n) + s.low n + (s.high n - s.low n) * s.carry n := by
  have hsplit (i : ℕ) : (if i < s.low n then 1 else if i < s.high n then s.carry n else 0) =
      (1 - s.carry n) * (if i < s.low n then 1 else 0) +
        s.carry n * (if i < s.high n then 1 else 0) := by
    have hle : s.low n ≤ s.high n := min_le_max
    split_ifs <;> omega
  have hhigh : s.high n ≤ n := max_le (Nat.mod_lt _ hn).le (Nat.mod_lt _ hn).le
  have hlow : s.low n ≤ n := min_le_max.trans hhigh
  simp only [round_share _ h₀ h₁, hsplit, sum_add_distrib, ← mul_sum, sum_const, card_range,
    sum_lt hhigh, sum_lt hlow, nsmul_eq_mul]
  ring

theorem sum_round_share_iff (hn : 0 < n) {s : Leg} (h₀ : 0 ≤ s.progress) (h₁ : s.progress ≤ 1) :
    ∑ i ∈ Finset.range n, round (s.share i n).value = round s.value ↔ s.Exact n := by
  rw [sum_round_share hn h₀ h₁, eq_comm, round_eq_iff, value_eq n, Exact, excess]
  push_cast
  constructor <;> rintro ⟨h, h'⟩ <;> constructor <;> linarith

end Leg

variable {n : ℕ}

theorem legAt_split (i t source offset : ℕ) (stages : List (ℕ × ℕ)) :
    legAt t (split i n source) offset (splitStages i n stages) =
      (legAt t source offset stages).map (Leg.share i n) := by
  induction stages generalizing source offset with
  | nil => rfl
  | cons stage stages ih =>
    simp only [splitStages, List.map_cons, legAt]
    split
    · rfl
    · exact ih _ _

theorem lastTarget_split (i startVus : ℕ) (stages : List (ℕ × ℕ)) :
    lastTarget (split i n startVus) (splitStages i n stages) =
      split i n (lastTarget startVus stages) := by
  unfold lastTarget splitStages
  rw [List.getLast?_map]
  cases stages.getLast? <;> rfl

theorem vusAt_of_none {startVus t : ℕ} {stages : List (ℕ × ℕ)}
    (h : legAt t startVus 0 stages = none) :
    vusAt startVus stages t = lastTarget startVus stages := by
  rw [vusAt, interpolate_eq, h]
  rfl

/-! ## Exactness -/

/-- The agents together aim at the number of VUs of the plan in exact stages only, and always after
the last one. -/
theorem ramp_exact_iff (startVus : ℕ) (stages : List (ℕ × ℕ)) (n t : ℕ) (hn : 1 ≤ n) :
    ∑ i ∈ Finset.range n, (partitionSpec (.rampingVus startVus stages) i n).target t =
        (ExecutorSpec.rampingVus startVus stages).target t ↔
      ∀ s ∈ legAt t startVus 0 stages, s.Exact n := by
  show ∑ i ∈ Finset.range n, vusAt (split i n startVus) (splitStages i n stages) t =
    vusAt startVus stages t ↔ _
  cases h : legAt t startVus 0 stages with
  | none =>
    have hshare (i : ℕ) := legAt_split (n := n) i t startVus 0 stages
    simp only [h, Option.map_none] at hshare
    simp [vusAt_of_none h, vusAt_of_none (hshare _), lastTarget_split, sum_split hn]
  | some s =>
    have hshare (i : ℕ) := legAt_split (n := n) i t startVus 0 stages
    simp only [h, Option.map_some] at hshare
    obtain ⟨h₀, h₁⟩ := progress_mem h
    rw [← Nat.cast_inj (R := ℤ), Nat.cast_sum, sum_congr rfl fun i _ => vusAt_eq_round (hshare i),
      vusAt_eq_round h, Leg.sum_round_share_iff hn h₀ h₁]
    simp

theorem ramp_exact_iff_three :
    (∀ s ∈ legAt (5 * Scenario.second) 0 0 [(10 * Scenario.second, 3)], s.Exact 2) ∧
      ∑ i ∈ Finset.range 2, (partitionSpec (.rampingVus 0 [(10 * Scenario.second, 3)]) i 2).target
          (5 * Scenario.second) =
        (ExecutorSpec.rampingVus 0 [(10 * Scenario.second, 3)]).target (5 * Scenario.second) := by
  have hexact : ∀ s ∈ legAt (5 * Scenario.second) 0 0 [(10 * Scenario.second, 3)],
      s.Exact 2 := by
    decide +kernel
  exact ⟨hexact, (ramp_exact_iff 0 _ 2 _ (by decide)).2 hexact⟩

/-- Two agents ramp to one VU each: half-way both have started theirs, where the plan has one. -/
theorem ramp_two_agents :
    ∑ i ∈ Finset.range 2, (partitionSpec (.rampingVus 0 [(10 * Scenario.second, 2)]) i 2).target
        (5 * Scenario.second) = 2 ∧
      (ExecutorSpec.rampingVus 0 [(10 * Scenario.second, 2)]).target (5 * Scenario.second) = 1 := by
  decide +kernel

end Loadr
