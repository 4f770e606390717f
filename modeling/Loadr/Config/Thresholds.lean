import Mathlib.Data.List.MinMax
import Loadr.Durations

/-!
# Threshold expressions

`ThresholdExpr.parse` looks for the leftmost comparison operator and reads what is on its two sides.
The numbers are those that `f64::from_str` knows, of which only some mean anything here:
`meaningful_iff` says which texts have to be kept out, besides those that are refused.
-/

namespace Loadr

open Loadr.Flow Scenario List Option

inductive ThresholdParseError
  | empty
  | unknownAgg (agg : String)
  | badPercentile (inner : String)
  | badSlo (inner : String)
  | unsupportedSlo (num : String)
  | missingOp (expr : String)
  | badNumber (bound : String)
deriving DecidableEq

inductive Agg
  | avg
  | min
  | max
  | med
  | percentile (p : F64)
  | rate
  | count
  | value
  | slo (n : F64)
deriving DecidableEq

inductive CompareOp
  | lt
  | le
  | gt
  | ge
  | eq
  | ne
deriving DecidableEq

structure ThresholdExpr where
  agg : Agg
  op : CompareOp
  bound : F64
deriving DecidableEq

/-- The last one is 99.9, as the compiler reads it. -/
def supportedSloPoints : List ℚ := [50, 90, 95, 99, 3514918771674317 / 2 ^ 45]

/-- As the compiler reads 1e-9. -/
def sloEpsilon : ℚ := 4835703278458517 / 2 ^ 82

/-! ## Printing -/

def Agg.display (number : F64 → List Char) : Agg → List Char
  | .avg => "avg".toList
  | .min => "min".toList
  | .max => "max".toList
  | .med => "med".toList
  | .percentile p => "p(".toList ++ number p ++ ")".toList
  | .rate => "rate".toList
  | .count => "count".toList
  | .value => "value".toList
  | .slo n => "slo(".toList ++ (number n ++ "%".toList) ++ ")".toList

def CompareOp.display : CompareOp → List Char
  | .lt => ['<']
  | .le => ['<', '=']
  | .gt => ['>']
  | .ge => ['>', '=']
  | .eq => ['=', '=']
  | .ne => ['!', '=']

def ThresholdExpr.display (number : F64 → List Char) (e : ThresholdExpr) : String :=
  String.ofList (e.agg.display number ++ (e.op.display ++ number e.bound))

/-! ## Parsing -/

def find (tok : List Char) : List Char → Option ℕ
  | [] => none
  | c :: s => if tok.isPrefixOf (c :: s) then some 0 else (find tok s).map (· + 1)

def operators : List (List Char × CompareOp) :=
  [(['<', '='], .le), (['>', '='], .ge), (['=', '='], .eq), (['!', '='], .ne), (['<'], .lt),
    (['>'], .gt), (['='], .eq)]

def found (s : List Char) : List (ℕ × ℕ × CompareOp) :=
  operators.filterMap fun t => (find t.1 s).map (·, t.1.length, t.2)

/-- A token replaces one found before only if it is further left. -/
def findOp (s : List Char) : Option (ℕ × ℕ × CompareOp) := (found s).argmin (·.1)

variable (r : Readers)

def readNumber (s : List Char) : Option F64 := r.toF64 (String.ofList s)

def between (before after s : List Char) : Option (List Char) :=
  (s.dropPrefix? before).bind (·.dropSuffix? after)

def percentileText : List Char → Option (List Char) := between "p(".toList ")".toList

def sloText : List Char → Option (List Char) := between "slo(".toList ")".toList

def sloNumber (inner : List Char) : List Char :=
  trim (((trim inner).dropSuffix? "%".toList).getD (trim inner))

/-- Between two numbers that are so close the subtraction is exact. -/
def parseSlo (inner : List Char) : Except ThresholdParseError Agg :=
  match readNumber r (sloNumber inner) with
  | none => .error (.badSlo (String.ofList (trim inner)))
  | some n =>
    if !n.isFinite || n.le 0 || (F64.fin 100).le n then
      .error (.badSlo (String.ofList (trim inner)))
    else if supportedSloPoints.any fun p => (F64.fin p - n).abs.lt (.fin sloEpsilon) then
      .ok (.slo n)
    else .error (.unsupportedSlo (String.ofList (sloNumber inner)))

def parsePercentile (inner : List Char) : Except ThresholdParseError Agg :=
  match readNumber r (trim inner) with
  | none => .error (.badPercentile (String.ofList inner))
  | some p =>
    if p.le 0 || (F64.fin 100).lt p then .error (.badPercentile (String.ofList inner))
    else .ok (.percentile p)

def parseBracketed (s : List Char) : Except ThresholdParseError Agg :=
  match percentileText s with
  | some inner => parsePercentile r inner
  | none =>
    match sloText s with
    | some inner => parseSlo r inner
    | none => .error (.unknownAgg (String.ofList s))

def parseAgg (s : List Char) : Except ThresholdParseError Agg :=
  match String.ofList s with
  | "avg" => .ok .avg
  | "min" => .ok .min
  | "max" => .ok .max
  | "med" => .ok .med
  | "rate" => .ok .rate
  | "count" => .ok .count
  | "value" => .ok .value
  | _ => parseBracketed r s

/-- `as_secs_f64`, in milliseconds. -/
def asMillis (d : ℕ) : F64 :=
  let subsec := (F64.fin ((d % second : ℕ) / second)).rounded
  (((F64.fin (d / second : ℕ)).rounded + subsec).rounded * .fin 1000).rounded

/-- A text that is no number is left to `humantime`, so making a duration of it does not panic. -/
def parseBound (s : List Char) : Except ThresholdParseError F64 :=
  match readNumber r s with
  | some v => .ok v
  | none =>
    match Dur.parse r (String.ofList s) with
    | some (.ok d) => .ok (asMillis d)
    | _ => .error (.badNumber (String.ofList s))

def ThresholdExpr.parse (s : String) : Except ThresholdParseError ThresholdExpr :=
  let s := trim s.toList
  if s.isEmpty then .error .empty
  else
    match findOp s with
    | none => .error (.missingOp (String.ofList s))
    | some (idx, len, op) => do
      let agg ← parseAgg r (trim (s.take idx))
      let bound ← parseBound r (trim (s.drop (idx + len)))
      return { agg, op, bound }

/-! ## The operator -/

/-- The operator is the leftmost one, and the longest one there. -/
def Leftmost (s : List Char) (op : CompareOp) : Prop :=
  ∃ lhs tok rhs, s = lhs ++ (tok ++ rhs) ∧ (tok, op) ∈ operators ∧ ∀ t ∈ operators,
    (∀ i < lhs.length, ¬t.1 <+: s.drop i) ∧ (t.1 <+: tok ++ rhs → t.1.length ≤ tok.length)

theorem find_spec {tok s : List Char} {i : ℕ} (h : find tok s = some i) : tok <+: s.drop i := by
  induction s generalizing i with
  | nil => cases h
  | cons c s ih =>
    rw [find] at h
    split_ifs at h with hpre
    · cases h
      exact isPrefixOf_iff_prefix.1 hpre
    · obtain ⟨j, hj, rfl⟩ := map_eq_some_iff.1 h
      exact ih hj

theorem find_le {tok s : List Char} {i : ℕ} (htok : tok ≠ []) (h : tok <+: s.drop i) :
    ∃ j ≤ i, find tok s = some j := by
  induction s generalizing i with
  | nil => simp [htok] at h
  | cons c s ih =>
    rw [find]
    split_ifs with hpre
    · exact ⟨0, Nat.zero_le i, rfl⟩
    · cases i with
      | zero => cases hpre (List.isPrefixOf_iff_prefix.2 h)
      | succ i =>
        obtain ⟨j, hj, hfind⟩ := ih h
        exact ⟨j + 1, by omega, by rw [hfind, map_some]⟩

theorem found_sorted (s : List Char) : (found s).Pairwise fun a b => b.2.1 ≤ a.2.1 := by
  have hlongest : operators.Pairwise fun a b => b.1.length ≤ a.1.length := by decide
  refine hlongest.filterMap _ fun a b hab x hx y hy => ?_
  obtain ⟨i, -, rfl⟩ := map_eq_some_iff.1 hx
  obtain ⟨j, -, rfl⟩ := map_eq_some_iff.1 hy
  exact hab

theorem rel_of_mem_argmin {α : Type*} [DecidableEq α] {f : α → ℕ} {R : α → α → Prop}
    (hrefl : ∀ a, R a a) {l : List α} (hl : l.Pairwise R) {m a : α} (hm : m ∈ l.argmin f)
    (ha : a ∈ l) (hle : f a ≤ f m) : R m a := by
  have hmem := argmin_mem hm
  rcases (index_of_argmin hm ha hle).lt_or_eq with hlt | heq
  · have hrel := pairwise_iff_getElem.1 hl _ _ (idxOf_lt_length_of_mem hmem)
      (idxOf_lt_length_of_mem ha) hlt
    simpa using hrel
  · exact (idxOf_inj hmem).1 heq ▸ hrefl m

theorem leftmost_of_findOp {s : List Char} {idx len : ℕ} {op : CompareOp}
    (h : findOp s = some (idx, len, op)) : Leftmost s op := by
  have hne : ∀ t ∈ operators, t.1 ≠ [] := by decide
  obtain ⟨⟨tok, op'⟩, hmem, hfind⟩ := mem_filterMap.1 (argmin_mem h)
  obtain ⟨i, hi, heq⟩ := map_eq_some_iff.1 hfind
  cases heq
  obtain ⟨rhs, hrhs⟩ := find_spec hi
  -- A token that begins somewhere has been found there or further left.
  have hfound {t : List Char × CompareOp} {i : ℕ} (ht : t ∈ operators) (hi : t.1 <+: s.drop i) :
      ∃ j ≤ i, idx ≤ j ∧ (j, t.1.length, t.2) ∈ found s := by
    obtain ⟨j, hj, hfind⟩ := find_le (hne t ht) hi
    have hm : (j, t.1.length, t.2) ∈ found s :=
      mem_filterMap.2 ⟨t, ht, map_eq_some_iff.2 ⟨j, hfind, rfl⟩⟩
    exact ⟨j, hj, le_of_mem_argmin hm h, hm⟩
  refine ⟨s.take idx, tok, rhs, by rw [hrhs, take_append_drop], hmem, fun t ht => ⟨?_, ?_⟩⟩
  · intro i hlt hpre
    obtain ⟨j, hj, hle, -⟩ := hfound ht hpre
    rw [length_take] at hlt
    omega
  · intro hpre
    obtain ⟨j, hj, hle, hm⟩ := hfound ht (hrhs ▸ hpre)
    obtain rfl : j = idx := by omega
    exact rel_of_mem_argmin (R := fun a b => b.2.1 ≤ a.2.1) (fun _ => le_rfl) (found_sorted s) h
      hm le_rfl

/-! ## What is accepted -/

def Plain (l : List Char) : Prop := ∀ c ∈ l, isWhiteSpace c = false ∧ c ∉ ['<', '>', '=', '!']

/-- The number is one that some text, or a duration, is read as. -/
def Yields (x : F64) : Prop :=
  (∃ s, r.toF64 s = some x) ∨ ∃ s d, r.parseDuration s = .ok d ∧ x = asMillis d

/-- Such numbers are printed so that they are read as they were. -/
structure Printing where
  number : F64 → List Char
  plain : ∀ x, Yields r x → x.isFinite → Plain (number x)
  reads : ∀ x, Yields r x → x.isFinite → readNumber r (number x) = some x

variable {r}

def Agg.number : Agg → Option F64
  | .percentile p => some p
  | .slo n => some n
  | _ => none

def Agg.Sound : Agg → Prop
  | .percentile p => ∃ q, p = .fin q ∧ 0 < q ∧ q ≤ 100
  | .slo n => ∃ q ∈ supportedSloPoints, n = .fin q
  | _ => True

structure Meaningful (P : Printing r) (s : String) (e : ThresholdExpr) : Prop where
  agg : e.agg.Sound
  bound : e.bound.isFinite
  printed : ThresholdExpr.parse r (e.display P.number) = .ok e
  operator : Leftmost (trim s.toList) e.op

def CloseToPoint (q : ℚ) : Prop := ∃ p ∈ supportedSloPoints, |p - q| < sloEpsilon

variable (r) in
/-- A percentile is not read as `nan`, and an objective not as a number next to a supported one. -/
def RegularAgg (lhs : List Char) : Prop :=
  match percentileText lhs with
  | some inner => readNumber r (trim inner) ≠ some .nan
  | none => ∀ inner ∈ sloText lhs, ∀ q, readNumber r (sloNumber inner) = some (.fin q) →
    CloseToPoint q → q ∈ supportedSloPoints

variable (r) in
def Regular (s : String) : Prop :=
  ∀ idx len op, findOp (trim s.toList) = some (idx, len, op) →
    RegularAgg r (trim ((trim s.toList).take idx)) ∧
      ∀ x ∈ readNumber r (trim ((trim s.toList).drop (idx + len))), x.isFinite

theorem parse_eq_ok_iff {s : String} {e : ThresholdExpr} :
    ThresholdExpr.parse r s = .ok e ↔ ∃ idx len,
      findOp (trim s.toList) = some (idx, len, e.op) ∧
      parseAgg r (trim ((trim s.toList).take idx)) = .ok e.agg ∧
      parseBound r (trim ((trim s.toList).drop (idx + len))) = .ok e.bound := by
  obtain ⟨agg, op, bound⟩ := e
  unfold ThresholdExpr.parse
  cases hf : findOp (trim s.toList) with
  | none =>
    dsimp only
    rw [hf]
    split_ifs <;> simp
  | some x =>
    obtain ⟨idx, len, op'⟩ := x
    have hne : (trim s.toList).isEmpty = false := by
      by_contra hs
      rw [Bool.not_eq_false, List.isEmpty_iff] at hs
      rw [hs] at hf
      cases hf
    simp only [hne, hf, Bool.false_eq_true, if_false, Fallible.bind_ok_iff]
    constructor
    · rintro ⟨agg, hagg, bound, hbound, ⟨⟩⟩
      exact ⟨idx, len, rfl, hagg, hbound⟩
    · rintro ⟨_, _, ⟨⟩, hagg, hbound⟩
      exact ⟨agg, hagg, bound, hbound, rfl⟩

theorem parsePercentile_eq_ok {inner : List Char} {agg : Agg}
    (h : parsePercentile r inner = .ok agg) : ∃ p, readNumber r (trim inner) = some p ∧
      p.le 0 = false ∧ (F64.fin 100).lt p = false ∧ agg = .percentile p := by
  unfold parsePercentile at h
  split at h
  · cases h
  · split_ifs at h with hp
    cases h
    simp only [Bool.or_eq_true, not_or, Bool.not_eq_true] at hp
    exact ⟨_, ‹_›, hp.1, hp.2, rfl⟩

theorem parseSlo_eq_ok {inner : List Char} {agg : Agg} (h : parseSlo r inner = .ok agg) :
    ∃ q, readNumber r (sloNumber inner) = some (.fin q) ∧ CloseToPoint q ∧ agg = .slo (.fin q) := by
  unfold parseSlo at h
  split at h
  · cases h
  · rename_i n hn
    split_ifs at h with hrange hany
    cases h
    cases n with
    | fin q =>
      obtain ⟨p, hp, hlt⟩ := any_eq_true.1 hany
      have habs : |p + -q| < sloEpsilon := of_decide_eq_true hlt
      exact ⟨q, hn, ⟨p, hp, by rwa [sub_eq_add_neg]⟩, rfl⟩
    | _ => simp [F64.isFinite] at hrange

theorem parseAgg_cases {s : List Char} {agg : Agg} (h : parseAgg r s = .ok agg) :
    (percentileText s = none ∧ sloText s = none ∧ agg.number = none) ∨
    (∃ inner, percentileText s = some inner ∧ parsePercentile r inner = .ok agg) ∨
    ∃ inner, percentileText s = none ∧ sloText s = some inner ∧ parseSlo r inner = .ok agg := by
  unfold parseAgg at h
  split at h
  case h_8 =>
    unfold parseBracketed at h
    split at h
    · exact .inr (.inl ⟨_, ‹_›, h⟩)
    · split at h
      · exact .inr (.inr ⟨_, ‹_›, ‹_›, h⟩)
      · cases h
  all_goals
    rename_i hs
    cases h
    obtain rfl := String.toList_ofList ▸ congrArg String.toList hs
    exact .inl ⟨by decide, by decide, rfl⟩

theorem sound_iff {s : List Char} {agg : Agg} (h : parseAgg r s = .ok agg) :
    agg.Sound ↔ RegularAgg r s := by
  unfold RegularAgg
  rcases parseAgg_cases h with ⟨hp, hs, hnumber⟩ | ⟨inner, hp, h⟩ | ⟨inner, hp, hs, h⟩
  · have hsound : agg.Sound := by cases agg <;> trivial
    simp [hp, hs, hsound]
  · obtain ⟨p, hread, hlow, hhigh, rfl⟩ := parsePercentile_eq_ok h
    rw [hp]
    simp only [hread, ne_eq, some.injEq]
    cases p with
    | fin q =>
      have hq : 0 < q ∧ q ≤ 100 := by
        simp [F64.le, F64.lt, F64.eq, F64.zero_def] at hlow hhigh
        exact ⟨lt_of_le_of_ne hlow.1 (Ne.symm hlow.2), hhigh⟩
      exact iff_of_true ⟨q, rfl, hq⟩ nofun
    | nan => exact iff_of_false nofun (by simp)
    | posInf => cases hhigh
    | negInf => cases hlow
  · obtain ⟨q, hread, hclose, rfl⟩ := parseSlo_eq_ok h
    simp [hp, hs, hread, hclose, Agg.Sound]

theorem yields_of_parseAgg {s : List Char} {agg : Agg} (h : parseAgg r s = .ok agg) :
    ∀ x ∈ agg.number, Yields r x := by
  rcases parseAgg_cases h with ⟨-, -, hnumber⟩ | ⟨inner, -, h⟩ | ⟨inner, -, -, h⟩
  · simp [hnumber]
  · obtain ⟨p, hread, -, -, rfl⟩ := parsePercentile_eq_ok h
    rintro _ ⟨⟩
    exact .inl ⟨_, hread⟩
  · obtain ⟨q, hread, -, rfl⟩ := parseSlo_eq_ok h
    rintro _ ⟨⟩
    exact .inl ⟨_, hread⟩

theorem asMillis_isFinite {d : ℕ} (h : d < 2 ^ 64 * 10 ^ 9) : (asMillis d).isFinite := by
  have hsecs : |((d / second : ℕ) : ℚ)| ≤ 2 ^ 64 := by
    rw [Nat.abs_cast]
    exact_mod_cast (Nat.div_lt_of_lt_mul (Nat.mul_comm .. ▸ h)).le
  have hsubsec : |((d % second : ℕ) : ℚ) / second| ≤ 2 ^ 0 := by
    have hlt : ((d % second : ℕ) : ℚ) ≤ second := by
      exact_mod_cast (Nat.mod_lt d (by decide : second > 0)).le
    rw [abs_of_nonneg (by positivity), pow_zero]
    exact div_le_one_of_le₀ hlt (Nat.cast_nonneg _)
  obtain ⟨h₁, hle₁⟩ := F64.rounded_of_abs_le (by decide) hsecs
  obtain ⟨h₂, hle₂⟩ := F64.rounded_of_abs_le (by decide) hsubsec
  obtain ⟨h₃, hle₃⟩ := F64.rounded_of_abs_le (k := 65) (by decide)
    ((abs_add_le _ _).trans ((add_le_add hle₁ hle₂).trans (by norm_num)))
  have hmillis : |F64.roundQ (F64.roundQ ((d / second : ℕ) : ℚ) +
      F64.roundQ ((d % second : ℕ) / second)) * 1000| ≤ 2 ^ 75 := by
    rw [abs_mul]
    calc _ ≤ (2 ^ 65 : ℚ) * |1000| := mul_le_mul_of_nonneg_right hle₃ (abs_nonneg _)
      _ ≤ 2 ^ 75 := by norm_num
  obtain ⟨h₄, -⟩ := F64.rounded_of_abs_le (by decide) hmillis
  have hsum (a b : ℚ) : F64.fin a + F64.fin b = F64.fin (a + b) := rfl
  have hmul (a b : ℚ) : F64.fin a * F64.fin b = F64.fin (a * b) := rfl
  rw [asMillis, h₁, h₂, hsum, h₃, hmul, h₄]
  rfl

/-- A duration is one of `humantime`, as the text is no number. -/
theorem parseBound_cases {s : List Char} {x : F64} (h : parseBound r (trim s) = .ok x) :
    readNumber r (trim s) = some x ∨ readNumber r (trim s) = none ∧
      ∃ s d, r.parseDuration s = .ok d ∧ x = asMillis d := by
  unfold parseBound at h
  split at h
  · cases h
    exact .inl ‹_›
  · rename_i hnone
    split at h
    · rename_i d hd
      cases h
      have htrim : trimmed (String.ofList (trim s)) = String.ofList (trim s) := by
        rw [trimmed, String.toList_ofList, trim_trim]
      rw [Dur.parse, htrim, show r.toF64 _ = none from hnone] at hd
      cases hp : r.parseDuration (String.ofList (trim s)) with
      | error e => simp [hp, Except.mapError] at hd
      | ok d' =>
        obtain rfl : d' = d := by simpa [hp, Except.mapError] using hd
        exact .inr ⟨hnone, _, _, hp, rfl⟩
    · cases h

/-! ## Printing and parsing again -/

theorem find_append {t : Char} {tok a : List Char} (ha : t ∉ a) (s : List Char) :
    find (t :: tok) (a ++ s) = (find (t :: tok) s).map (· + a.length) := by
  induction a with
  | nil => simp
  | cons c a ih =>
    have hne : t ≠ c := fun h => ha (h ▸ mem_cons_self)
    rw [cons_append, find, if_neg (by simp [hne]), ih (mt (mem_cons_of_mem c) ha)]
    cases find (t :: tok) s <;> simp [Nat.add_assoc]

theorem find_eq_none {t : Char} {tok b : List Char} (hb : t ∉ b) : find (t :: tok) b = none := by
  have happend : find (t :: tok) (b ++ []) = _ := find_append hb []
  simpa [find] using happend

theorem found_append {a : List Char} (ha : Plain a) (s : List Char) :
    found (a ++ s) = (found s).map fun x => (x.1 + a.length, x.2) := by
  rw [found, found, map_filterMap]
  refine filterMap_congr fun t ht => ?_
  have hhead : ∀ t ∈ operators, ∃ c ∈ ['<', '>', '=', '!'], t.1 = c :: t.1.tail := by
    simp [operators]
  obtain ⟨c, hc, htok⟩ := hhead t ht
  rw [htok, find_append fun hm => (ha c hm).2 hc]
  cases find (c :: t.1.tail) s <;> rfl

theorem findOp_display {a b : List Char} (ha : Plain a) (hb : Plain b) (op : CompareOp) :
    findOp (a ++ (op.display ++ b)) = some (a.length, op.display.length, op) := by
  have hnone : ∀ t ∈ ['<', '>', '=', '!'], ∀ tok, find (t :: tok) b = none :=
    fun t ht tok => find_eq_none fun hm => (hb t hm).2 ht
  have heq : ¬['='] <+: b := by
    rintro ⟨rest, rfl⟩
    exact (hb '=' (by simp)).2 (by simp)
  rw [findOp, found_append ha]
  cases op <;> simp [found, operators, CompareOp.display, find, hnone, heq, List.argmin,
    List.argAux]

theorem between_append (a m b : List Char) : between a b (a ++ m ++ b) = some m := by
  refine bind_eq_some_iff.2 ⟨m ++ b, ?_, ?_⟩
  · simp [dropPrefix?_eq_some_iff]
  · simp [dropSuffix?_eq_some_iff]

theorem Plain.append {a b : List Char} (ha : Plain a) (hb : Plain b) : Plain (a ++ b) :=
  forall_mem_append.2 ⟨ha, hb⟩

theorem Printing.plain_display (P : Printing r) {agg : Agg} (h : agg.Sound)
    (hread : ∀ x ∈ agg.number, Yields r x) :
    Plain (agg.display P.number) := by
  have hlit : ∀ s ∈ ["avg", "min", "max", "med", "rate", "count", "value", "p(", "slo(", "%", ")"],
      Plain s.toList := by
    simp [Plain, isWhiteSpace]
  cases agg with
  | percentile p =>
    obtain ⟨q, rfl, -⟩ := h
    exact ((hlit "p(" (by decide)).append (P.plain _ (hread _ rfl) rfl)).append
      (hlit ")" (by decide))
  | slo n =>
    obtain ⟨q, -, rfl⟩ := h
    exact ((hlit "slo(" (by decide)).append ((P.plain _ (hread _ rfl) rfl).append
      (hlit "%" (by decide)))).append (hlit ")" (by decide))
  | _ => exact hlit _ (by decide)

theorem parseAgg_eq {s : List Char} (hs : s.head? = some 'p' ∨ s.head? = some 's') :
    parseAgg r s = parseBracketed r s := by
  unfold parseAgg
  split
  case h_8 => rfl
  all_goals
    rename_i h
    cases String.toList_ofList ▸ congrArg String.toList h
    simp at hs

theorem Printing.parseAgg_display (P : Printing r) {agg : Agg} (h : agg.Sound)
    (hread : ∀ x ∈ agg.number, Yields r x) : parseAgg r (agg.display P.number) = .ok agg := by
  have hplain {q : ℚ} (hq : .fin q ∈ agg.number) := P.plain (.fin q) (hread _ hq) rfl
  have htrim {q : ℚ} (hq : .fin q ∈ agg.number) := trim_eq_self fun c hc => (hplain hq c hc).1
  cases agg with
  | percentile p =>
    obtain ⟨q, rfl, hlow, hhigh⟩ := h
    have htext : percentileText ((Agg.percentile (.fin q)).display P.number) =
      some (P.number (.fin q)) := between_append _ _ _
    rw [parseAgg_eq (.inl rfl), parseBracketed, htext]
    simp only [parsePercentile, htrim (q := q) rfl, P.reads (.fin q) (hread _ rfl) rfl]
    refine if_neg ?_
    simp [F64.le, F64.lt, F64.eq, F64.zero_def, hlow.le, hlow.ne', hhigh]
  | slo n =>
    obtain ⟨q, hq, rfl⟩ := h
    have htext : sloText ((Agg.slo (.fin q)).display P.number) =
      some (P.number (.fin q) ++ "%".toList) := between_append _ _ _
    have hnone : percentileText ((Agg.slo (.fin q)).display P.number) = none := rfl
    have hnumber : sloNumber (P.number (.fin q) ++ "%".toList) = P.number (.fin q) := by
      have hall : ∀ c ∈ P.number (.fin q) ++ "%".toList, isWhiteSpace c = false :=
        forall_mem_append.2 ⟨fun c hc => (hplain rfl c hc).1, by simp [isWhiteSpace]⟩
      have hdrop : (P.number (.fin q) ++ "%".toList).dropSuffix? "%".toList =
        some (P.number (.fin q)) := by simp [dropSuffix?_eq_some_iff]
      rw [sloNumber, trim_eq_self hall, hdrop, getD_some, htrim rfl]
    have hok : ∀ q ∈ supportedSloPoints, ((F64.fin q).le 0 || (F64.fin 100).le (.fin q)) = false ∧
        supportedSloPoints.any fun p => (F64.fin p - .fin q).abs.lt (.fin sloEpsilon) := by
      decide +kernel
    rw [parseAgg_eq (.inr rfl), parseBracketed, hnone, htext]
    simp only [parseSlo, hnumber, P.reads (.fin q) (hread _ rfl) rfl]
    rw [if_neg (by simpa [F64.isFinite] using (hok q hq).1), if_pos (hok q hq).2]
  | _ => rfl

theorem Printing.parse_display (P : Printing r) {e : ThresholdExpr} (hagg : e.agg.Sound)
    (hnumber : ∀ x ∈ e.agg.number, Yields r x) (hbound : e.bound.isFinite)
    (hread : Yields r e.bound) : ThresholdExpr.parse r (e.display P.number) = .ok e := by
  have hlhs := P.plain_display hagg hnumber
  have hrhs : Plain (P.number e.bound) := P.plain _ hread hbound
  have hop : ∀ c ∈ e.op.display, isWhiteSpace c = false := by
    cases e.op <;> simp [CompareOp.display, isWhiteSpace]
  have htrim : trim (e.display P.number).toList =
      e.agg.display P.number ++ (e.op.display ++ P.number e.bound) := by
    rw [ThresholdExpr.display, String.toList_ofList]
    refine trim_eq_self (forall_mem_append.2 ⟨fun c hc => (hlhs c hc).1, ?_⟩)
    exact forall_mem_append.2 ⟨hop, fun c hc => (hrhs c hc).1⟩
  refine parse_eq_ok_iff.2 ⟨_, _, htrim ▸ findOp_display hlhs hrhs e.op, ?_, ?_⟩
  · rw [htrim, take_left, trim_eq_self fun c hc => (hlhs c hc).1]
    exact P.parseAgg_display hagg hnumber
  · rw [htrim, ← drop_drop, drop_left, drop_left,
      trim_eq_self fun c hc => (hrhs c hc).1, parseBound, P.reads _ hread hbound]

/-- Accepted expressions are meaningful exactly if regular numbers are read. -/
theorem meaningful_iff (P : Printing r) {s : String} {e : ThresholdExpr}
    (h : ThresholdExpr.parse r s = .ok e) : Meaningful P s e ↔ Regular r s := by
  obtain ⟨idx, len, hop, hl, hr⟩ := parse_eq_ok_iff.1 h
  have hregular : Regular r s ↔ e.agg.Sound ∧ e.bound.isFinite := by
    have hbound : (∀ x ∈ readNumber r (trim ((trim s.toList).drop (idx + len))), x.isFinite) ↔
        e.bound.isFinite := by
      rcases parseBound_cases hr with hread | ⟨hnone, s, d, hd, hmillis⟩
      · simp [hread]
      · simp [hnone, hmillis, asMillis_isFinite (r.inRange hd)]
    rw [sound_iff hl, ← hbound]
    refine ⟨fun hall => hall idx len _ hop, fun hone idx' len' op' hop' => ?_⟩
    cases hop.symm.trans hop'
    exact hone
  have hread : Yields r e.bound := (parseBound_cases hr).imp (fun h => ⟨_, h⟩) (·.2)
  rw [hregular]
  exact ⟨fun hm => ⟨hm.agg, hm.bound⟩, fun ⟨hagg, hbound⟩ => ⟨hagg, hbound,
    P.parse_display hagg (yields_of_parseAgg hl) hbound hread, leftmost_of_findOp hop⟩⟩

def fewNumbers : List (String × F64) :=
  [("95", .fin 95), ("400", .fin 400), ("nan", .nan), ("inf", .posInf),
    ("99.9000000001", .fin (3514918771677835 / 2 ^ 45))]

def fewReaders : Readers where
  toF64 s := (fewNumbers.find? (·.1 = s)).map (·.2)
  toU64 _ := none
  parseDuration _ := .error "value was empty"
  inRange h := by cases h

def fewTexts (x : F64) : List Char := ((fewNumbers.find? (·.2 = x)).map (·.1.toList)).getD []

theorem fewTexts_read {x : F64} (h : Yields fewReaders x) :
    Plain (fewTexts x) ∧ readNumber fewReaders (fewTexts x) = some x := by
  have hall : ∀ t ∈ fewNumbers,
      (fewTexts t.2).all (fun c => !isWhiteSpace c && c ∉ ['<', '>', '=', '!']) = true ∧
        readNumber fewReaders (fewTexts t.2) = some t.2 := by decide +kernel
  rcases h with ⟨s, hs⟩ | ⟨_, _, hd, -⟩
  · obtain ⟨t, ht, rfl⟩ := map_eq_some_iff.1 hs
    obtain ⟨hplain, hread⟩ := hall t (mem_of_find?_eq_some ht)
    exact ⟨by simpa [Plain] using hplain, hread⟩
  · cases hd

def fewPrinting : Printing fewReaders where
  number := fewTexts
  plain _ h _ := (fewTexts_read h).1
  reads _ h _ := (fewTexts_read h).2

theorem meaningful_percentile :
    Meaningful fewPrinting "p(95) < 400" ⟨.percentile (.fin 95), .lt, .fin 400⟩ ↔
      Regular fewReaders "p(95) < 400" :=
  meaningful_iff fewPrinting (by decide +kernel)

/-- A percentile and a bound that are no numbers, and an objective next to a supported one. -/
theorem accepted_meaningless : ["p(nan)<400", "avg<inf", "slo(99.9000000001%)<400"].Forall fun s =>
    ∃ e, ThresholdExpr.parse fewReaders s = .ok e ∧ ¬Meaningful fewPrinting s e := by
  have hslo : (3514918771677835 / 2 ^ 45 : ℚ) ∉ supportedSloPoints := by decide +kernel
  refine ⟨⟨⟨.percentile .nan, .lt, .fin 400⟩, by decide +kernel, fun h => ?_⟩,
    ⟨⟨.avg, .lt, .posInf⟩, by decide +kernel, fun h => nomatch h.bound⟩,
    ⟨⟨.slo (.fin (3514918771677835 / 2 ^ 45)), .lt, .fin 400⟩, by decide +kernel, fun h => ?_⟩⟩
  · obtain ⟨q, hq, -⟩ := h.agg
    cases hq
  · obtain ⟨q, hq, heq⟩ := h.agg
    exact hslo (F64.fin.inj heq ▸ hq)

end Loadr
