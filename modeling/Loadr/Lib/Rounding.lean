import Loadr.Lib.F64
import Mathlib.Data.Int.Log
import Mathlib.Tactic.Linarith

/-!
# Rounding to the binary format

The result of an operation is the number of the format nearest to the exact result: `roundQ` rounds
a rational to 53 binary digits, or to a multiple of the least positive number, with ties to the even
one, and `rounded` makes what is too large an infinity.
-/

namespace F64

/-- To the nearest integer, ties to the even one. -/
def roundEven (q : ℚ) : ℤ :=
  if q - ⌊q⌋ < 1 / 2 then ⌊q⌋
  else if 1 / 2 < q - ⌊q⌋ then ⌊q⌋ + 1
  else if ⌊q⌋ % 2 = 0 then ⌊q⌋
  else ⌊q⌋ + 1

/-- The exponent of the unit in the last place. -/
def ulpExp (q : ℚ) : ℤ := max (Int.log 2 |q|) (-1022) - 52

def roundQ (q : ℚ) : ℚ := roundEven (q / 2 ^ ulpExp q) * 2 ^ ulpExp q

def rounded : F64 → F64
  | fin q => if |roundQ q| < 2 ^ 1024 then fin (roundQ q) else signedInf q
  | x => x

/-! ## Integers -/

section RoundEven

variable {q : ℚ} {n : ℤ}

@[simp]
theorem roundEven_intCast (n : ℤ) : roundEven n = n := by simp [roundEven]

theorem roundEven_sub_le (q : ℚ) : |roundEven q - q| ≤ 1 / 2 := by
  have hle := Int.floor_le q
  have hlt := Int.lt_floor_add_one q
  unfold roundEven
  split_ifs <;> push_cast <;> rw [abs_le] <;> constructor <;> linarith

theorem roundEven_lt (h : q < n - 1 / 2) : roundEven q < n := by
  have hdist := abs_le.1 (roundEven_sub_le q)
  exact_mod_cast (show (roundEven q : ℚ) < n by linarith)

theorem roundEven_neg (q : ℚ) : roundEven (-q) = -roundEven q := by
  by_cases hq : q = ⌊q⌋
  · rw [hq, ← Int.cast_neg, roundEven_intCast, roundEven_intCast]
  · have hle := (Int.floor_le q).lt_of_ne' hq
    have hfloor : ⌊-q⌋ = -⌊q⌋ - 1 := by
      rw [Int.floor_eq_iff]
      push_cast
      constructor <;> linarith [Int.lt_floor_add_one q]
    unfold roundEven
    rw [hfloor]
    push_cast
    split_ifs <;> first | omega | linarith

theorem le_roundEven_of_even (hn : Even n) (h : n - 1 / 2 ≤ q) : n ≤ roundEven q := by
  have hlt := Int.lt_floor_add_one q
  have hfloor : n - 1 ≤ ⌊q⌋ := Int.le_floor.2 (by push_cast; linarith)
  rcases hfloor.eq_or_lt with he | hgt
  · have hhalf : 1 / 2 ≤ q - ⌊q⌋ := by
      rw [← he]
      push_cast
      linarith
    obtain ⟨m, rfl⟩ := hn
    unfold roundEven
    split_ifs <;> first | omega | linarith
  · unfold roundEven
    split_ifs <;> omega

theorem le_roundEven (h : n ≤ q) : n ≤ roundEven q := by
  have hfloor : n ≤ ⌊q⌋ := Int.le_floor.2 h
  unfold roundEven
  split_ifs <;> omega

theorem roundEven_le (h : q ≤ n) : roundEven q ≤ n := by
  have hneg := le_roundEven (n := -n) (q := -q) (by push_cast; linarith)
  rw [roundEven_neg] at hneg
  omega

end RoundEven

/-! ## The unit in the last place -/

section RoundQ

variable {x : ℚ} {k e n : ℤ}

theorem two_zpow_pos (k : ℤ) : (0 : ℚ) < 2 ^ k := zpow_pos two_pos k

theorem intCast_two_pow (hk : 0 ≤ k) : ((2 ^ k.toNat : ℤ) : ℚ) = 2 ^ k := by
  obtain ⟨m, rfl⟩ := Int.eq_ofNat_of_zero_le hk
  simp

theorem ulpExp_le (hx : x ≠ 0) (hk : -1021 ≤ k) (h : |x| < 2 ^ k) : ulpExp x ≤ k - 53 := by
  have hlog := (Int.lt_zpow_iff_log_lt one_lt_two (abs_pos.2 hx)).1 (by exact_mod_cast h)
  unfold ulpExp
  omega

theorem le_ulpExp (h : 2 ^ k ≤ |x|) : k - 52 ≤ ulpExp x := by
  have hpos : 0 < |x| := (two_zpow_pos k).trans_le h
  have hlog := (Int.zpow_le_iff_le_log one_lt_two hpos).1 (by exact_mod_cast h)
  unfold ulpExp
  omega

theorem neg_le_ulpExp (x : ℚ) : -1074 ≤ ulpExp x := by
  unfold ulpExp
  omega

theorem roundQ_neg (x : ℚ) : roundQ (-x) = -roundQ x := by
  simp [roundQ, ulpExp, neg_div, roundEven_neg]

/-! ## Bounds -/

theorem roundQ_le_mul (h : roundEven (x / 2 ^ ulpExp x) ≤ n) : roundQ x ≤ n * 2 ^ ulpExp x :=
  mul_le_mul_of_nonneg_right (by exact_mod_cast h) (two_zpow_pos _).le

theorem mul_le_roundQ (h : n ≤ roundEven (x / 2 ^ ulpExp x)) : n * 2 ^ ulpExp x ≤ roundQ x :=
  mul_le_mul_of_nonneg_right (by exact_mod_cast h) (two_zpow_pos _).le

theorem roundQ_nonpos (h : x ≤ 0) : roundQ x ≤ 0 := by
  have hle : x / 2 ^ ulpExp x ≤ ((0 : ℤ) : ℚ) := by
    simpa using div_nonpos_of_nonpos_of_nonneg h (two_zpow_pos _).le
  simpa using roundQ_le_mul (roundEven_le hle)

/-- A power of two is a multiple of the unit, unless it is too small. -/
theorem two_zpow_eq_mul (h : ulpExp x ≤ k) :
    (2 : ℚ) ^ k = ((2 ^ (k - ulpExp x).toNat : ℤ) : ℚ) * 2 ^ ulpExp x := by
  rw [intCast_two_pow (by omega), ← zpow_add₀ two_ne_zero, Int.sub_add_cancel]

theorem ulpExp_eq (hk : -1022 ≤ k) (hle : 2 ^ k ≤ x) (hlt : x < 2 ^ (k + 1)) :
    ulpExp x = k - 52 := by
  have hx : 0 < x := (two_zpow_pos k).trans_le hle
  rw [← abs_of_pos hx] at hle hlt
  have h₁ := ulpExp_le hx.ne' (by omega) hlt
  have h₂ := le_ulpExp hle
  omega

theorem roundQ_le (hk : -1022 ≤ k) (h : x ≤ 2 ^ k) : roundQ x ≤ 2 ^ k := by
  rcases le_or_gt x 0 with hx | hx
  · exact (roundQ_nonpos hx).trans (two_zpow_pos k).le
  have hlt : |x| < 2 ^ (k + 1) := by
    rw [abs_of_pos hx]
    exact h.trans_lt (zpow_lt_zpow_right₀ one_lt_two (Int.lt_succ k))
  have hulp := ulpExp_le hx.ne' (by omega) hlt
  rw [two_zpow_eq_mul (by omega : ulpExp x ≤ k)]
  refine roundQ_le_mul (roundEven_le ?_)
  rwa [div_le_iff₀ (two_zpow_pos _), ← two_zpow_eq_mul (by omega)]

theorem abs_roundQ_le (hk : -1022 ≤ k) (h : |x| ≤ 2 ^ k) : |roundQ x| ≤ 2 ^ k := by
  obtain ⟨hlo, hhi⟩ := abs_le.1 h
  have hneg := roundQ_le hk (by linarith : -x ≤ _)
  rw [roundQ_neg] at hneg
  exact abs_le.2 ⟨by linarith, roundQ_le hk hhi⟩

theorem two_zpow_le_roundQ (hk : -1021 ≤ k) (h : 2 ^ k - 2 ^ (k - 54) ≤ x) : 2 ^ k ≤ roundQ x := by
  rcases lt_or_ge x (2 ^ k) with hlt | hge
  · have hquarter : (2 : ℚ) ^ (k - 54) ≤ 2 ^ (k - 1) := zpow_le_zpow_right₀ one_le_two (by omega)
    have hdouble : (2 : ℚ) ^ k = 2 ^ (k - 1) * 2 := by
      rw [← zpow_add_one₀ two_ne_zero, Int.sub_add_cancel]
    have hulp : ulpExp x = k - 53 := by
      have h := ulpExp_eq (x := x) (k := k - 1) (by omega) (by linarith)
        (by rwa [Int.sub_add_cancel])
      omega
    have hk : (2 : ℚ) ^ k = ((2 ^ 53 : ℤ) : ℚ) * 2 ^ ulpExp x := by
      rw [two_zpow_eq_mul (by omega : ulpExp x ≤ k), hulp, sub_sub_cancel]
      rfl
    rw [hk]
    refine mul_le_roundQ (le_roundEven_of_even (by decide) ?_)
    rw [le_div_iff₀ (two_zpow_pos _), sub_mul, ← hk, hulp]
    refine h.trans_eq' ?_
    rw [show k - 53 = k - 54 + 1 by omega, zpow_add_one₀ two_ne_zero]
    ring
  · -- the least number with the same exponent is below
    have hx : 0 < x := (two_zpow_pos k).trans_le hge
    have hlog := (Int.zpow_le_iff_le_log one_lt_two hx).1 (by exact_mod_cast hge)
    have hle : (2 : ℚ) ^ Int.log 2 x ≤ x := by exact_mod_cast Int.zpow_log_le_self one_lt_two hx
    have hulp := ulpExp_eq (by omega) hle (by exact_mod_cast Int.lt_zpow_succ_log_self one_lt_two x)
    refine (zpow_le_zpow_right₀ one_le_two hlog).trans ?_
    rw [two_zpow_eq_mul (by omega : ulpExp x ≤ Int.log 2 x)]
    refine mul_le_roundQ (le_roundEven ?_)
    rwa [le_div_iff₀ (two_zpow_pos _), ← two_zpow_eq_mul (by omega)]

theorem roundQ_lt_iff (hk : -1021 ≤ k) : roundQ x < 2 ^ k ↔ x < 2 ^ k - 2 ^ (k - 54) := by
  refine ⟨fun h => lt_of_not_ge fun hge => h.not_ge (two_zpow_le_roundQ hk hge), fun h => ?_⟩
  rcases le_or_gt x 0 with hx | hx
  · exact (roundQ_nonpos hx).trans_lt (two_zpow_pos k)
  have hlt : x < 2 ^ k := h.trans (sub_lt_self _ (two_zpow_pos _))
  have hulp := ulpExp_le hx.ne' hk (by rwa [abs_of_pos hx])
  have hunit : (1 / 2 : ℚ) * 2 ^ ulpExp x ≤ 2 ^ (k - 54) := by
    have h : (2 : ℚ) ^ ulpExp x ≤ 2 ^ (k - 54 + 1) := zpow_le_zpow_right₀ one_le_two (by omega)
    rw [zpow_add_one₀ two_ne_zero] at h
    linarith
  rw [two_zpow_eq_mul (by omega : ulpExp x ≤ k)]
  refine mul_lt_mul_of_pos_right (Int.cast_lt.2 (roundEven_lt ?_)) (two_zpow_pos _)
  rw [div_lt_iff₀ (two_zpow_pos _), sub_mul, ← two_zpow_eq_mul (by omega)]
  linarith

/-- What is negative and not rounded to zero is more than half the least positive number away. -/
theorem roundQ_nonneg_iff : 0 ≤ roundQ x ↔ -2 ^ (-1075 : ℤ) ≤ x := by
  have hleast : (2 : ℚ) ^ (-1075 : ℤ) = 1 / 2 * 2 ^ (-1074 : ℤ) := by
    rw [show (-1074 : ℤ) = -1075 + 1 by omega, zpow_add_one₀ two_ne_zero]
    ring
  rw [hleast]
  constructor
  · refine fun h => le_of_not_gt fun hlt => h.not_gt ?_
    have hneg : x < 0 := hlt.trans (by linarith [two_zpow_pos (-1074)])
    rcases lt_or_ge |x| (2 ^ (-1021 : ℤ)) with hsmall | hlarge
    · have hulp : ulpExp x = -1074 :=
        le_antisymm (ulpExp_le hneg.ne le_rfl hsmall) (neg_le_ulpExp x)
      have hround : roundEven (x / 2 ^ ulpExp x) < (0 : ℤ) := by
        refine roundEven_lt ?_
        rw [div_lt_iff₀ (two_zpow_pos _), hulp, Int.cast_zero, zero_sub, neg_mul]
        exact hlt
      exact mul_neg_of_neg_of_pos (Int.cast_lt_zero.2 hround) (two_zpow_pos _)
    · rw [abs_of_neg hneg] at hlarge
      have hle := two_zpow_le_roundQ (le_refl (-1021))
        ((sub_le_self _ (two_zpow_pos _).le).trans hlarge)
      rw [roundQ_neg] at hle
      linarith [two_zpow_pos (-1021)]
  · intro h
    have hunit : (2 : ℚ) ^ (-1074 : ℤ) ≤ 2 ^ ulpExp x :=
      zpow_le_zpow_right₀ one_le_two (neg_le_ulpExp x)
    have hround : (0 : ℤ) ≤ roundEven (x / 2 ^ ulpExp x) := by
      refine le_roundEven_of_even (by decide) ?_
      rw [le_div_iff₀ (two_zpow_pos _)]
      push_cast
      linarith
    simpa using mul_le_roundQ hround

end RoundQ

/-! ## Overflow -/

theorem rounded_fin {q : ℚ} (h : |roundQ q| < 2 ^ 1024) : rounded (fin q) = fin (roundQ q) :=
  if_pos h

theorem rounded_of_abs_le {q : ℚ} {k : ℕ} (hk : k < 1024) (h : |q| ≤ 2 ^ k) :
    rounded (fin q) = fin (roundQ q) ∧ |roundQ q| ≤ 2 ^ k := by
  have hle : |roundQ q| ≤ 2 ^ (k : ℤ) := abs_roundQ_le (by omega) (by exact_mod_cast h)
  rw [zpow_natCast] at hle
  exact ⟨rounded_fin (hle.trans_lt (pow_lt_pow_right₀ one_lt_two hk)), hle⟩

end F64
