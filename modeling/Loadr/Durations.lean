import Loadr.Plan
import Loadr.Request.Host

/-!
# Making durations

Where texts and numbers are made durations, and durations deadlines.  A conversion or an addition
that panics has no result.  `durations_returned_iff` says for which inputs there is one; most of the
places check less than that.
-/

namespace Loadr

open Loadr.Flow Scenario

/-- The parsers of the standard library and of `humantime`. -/
structure Readers where
  toF64 : String → Option F64
  toU64 : String → Option ℕ
  parseDuration : String → Except String ℕ
  /-- A duration has a word of seconds. -/
  inRange : ∀ {s d}, parseDuration s = .ok d → d < 2 ^ 64 * 10 ^ 9

variable (r : Readers)

def trimmed (s : String) : String := String.ofList (trim s.toList)

/-! ## Durations of a plan -/

def nonNegative (message : String) (secs : F64) : Option (Except String ℕ) :=
  if secs.lt 0 || !secs.isFinite then some (.error message)
  else (Duration.fromSecsF64 secs).map .ok

def Dur.parse (s : String) : Option (Except String ℕ) :=
  match r.toF64 (trimmed s) with
  | some secs => nonNegative ("duration must be a non-negative number, got `" ++ s ++ "`") secs
  | none => some ((r.parseDuration (trimmed s)).mapError fun e =>
    "invalid duration `" ++ s ++ "`: " ++ e ++ " (try e.g. `500ms`, `30s`, `1m30s`)")

/-- What the visitor is handed by the YAML library. -/
inductive YamlScalar
  | str (v : String)
  | u64 (v : UInt64)
  | i64 (v : Int64)
  | f64 (v : F64)

def DurVisitor.visit : YamlScalar → Option (Except String ℕ)
  | .str v => Dur.parse r v
  | .u64 v => some (.ok (v.toNat * second))
  | .i64 v =>
    some (if v < 0 then .error "duration cannot be negative"
      else .ok (v.toUInt64.toNat * second))
  | .f64 v => nonNegative "duration must be a non-negative number" v

/-! ## Durations of event streams -/

def stripSuffix (s suffix : String) : Option String :=
  (s.toList.dropSuffix? suffix.toList).map String.ofList

def secondsOf : Option F64 → Option (Option ℕ)
  | some secs => (Duration.fromSecsF64 secs).map some
  | none => some none

def SseLimits.parseDuration (raw : String) : Option (Option ℕ) :=
  let raw := trimmed raw
  if raw.isEmpty then some none
  else match stripSuffix raw "ms" with
    | some num => some ((r.toU64 (trimmed num)).map (· * 10 ^ 6))
    | none => match stripSuffix raw "s" with
      | some num => secondsOf (r.toF64 (trimmed num))
      | none => match stripSuffix raw "m" with
        | some num => secondsOf ((r.toF64 (trimmed num)).map fun m => (m * .fin 60).rounded)
        | none => secondsOf (r.toF64 raw)

/-! ## Deadlines -/

def checkedAdd (limit a b : ℕ) : Option ℕ := if a + b < limit then some (a + b) else none

/-- The seconds of a duration are an unsigned 64-bit number. -/
def sumDurations (ds : List ℕ) : Option ℕ := ds.foldlM (checkedAdd (2 ^ 64 * second)) 0

/-- The seconds of an instant are a signed 64-bit number. -/
def addInstant (now duration : ℕ) : Option ℕ := checkedAdd (2 ^ 63 * second) now duration

namespace ExecutorSpec

/-- When the executor stops starting iterations, if it does by itself. -/
def softDeadline (now : ℕ) : ExecutorSpec → Option (Option ℕ)
  | .constantVus _ duration | .constantArrivalRate _ duration _ _
  | .perVuIterations _ _ duration | .sharedIterations _ _ duration =>
    (addInstant now duration).map some
  | .rampingVus _ stages => ((sumDurations (stages.map Prod.fst)).bind (addInstant now)).map some
  | .rampingArrivalRate _ stages _ _ =>
    ((sumDurations (stages.map Prod.fst)).bind (addInstant now)).map some
  | .externallyControlled _ duration => duration.mapM (addInstant now)

def scheduledDuration : ExecutorSpec → Option ℕ
  | .constantVus _ duration | .constantArrivalRate _ duration _ _
  | .perVuIterations _ _ duration | .sharedIterations _ _ duration => some duration
  | .rampingVus _ stages => some (stages.map Prod.fst).sum
  | .rampingArrivalRate _ stages _ _ => some (stages.map Prod.fst).sum
  | .externallyControlled _ duration => duration

end ExecutorSpec

/-! ## When there is a result -/

inductive DurationUse
  | text (s : String)
  | yaml (v : YamlScalar)
  | sse (raw : String)
  | timeout (http : Request.HttpDefaults) (ms : Option F64)
  | deadline (now : ℕ) (spec : ExecutorSpec)

def DurationUse.returns : DurationUse → Bool
  | .text s => (Dur.parse r s).isSome
  | .yaml v => (DurVisitor.visit r v).isSome
  | .sse raw => (SseLimits.parseDuration r raw).isSome
  | .timeout http ms => (Request.hostTimeout http ms).isSome
  | .deadline now spec => (spec.softDeadline now).isSome

/-- The text of a number in the duration of an event stream, and whether it is one of minutes. -/
def sseNumber (raw : String) : Option (String × Bool) :=
  if raw.isEmpty || (stripSuffix raw "ms").isSome then none
  else some (match stripSuffix raw "s", stripSuffix raw "m" with
    | some num, _ => (trimmed num, false)
    | none, some num => (trimmed num, true)
    | none, none => (raw, false))

/-- The number is a number of seconds that a duration can have. -/
def Seconds (x : F64) : Prop := ∃ q, x = .fin q ∧ 0 ≤ q ∧ q < 2 ^ 64

/-- The number times `k` is rounded to such a number. -/
def RoundsToSeconds (k : ℚ) (x : F64) : Prop :=
  ∃ q, x = .fin q ∧ -2 ^ (-1075 : ℤ) ≤ q * k ∧ q * k < 2 ^ 64 - 2 ^ 10

/-- A number for a plan must not be too large, one elsewhere neither that nor negative nor special.
A deadline must not be too far away. -/
def DurationUse.InRange : DurationUse → Prop
  | .text s | .yaml (.str s) => ∀ q, r.toF64 (trimmed s) = some (.fin q) → q < 2 ^ 64
  | .yaml (.f64 x) => ∀ q, x = .fin q → q < 2 ^ 64
  | .yaml _ => True
  | .sse raw => ∀ num minutes, sseNumber (trimmed raw) = some (num, minutes) →
    ∀ x ∈ r.toF64 num, if minutes then RoundsToSeconds 60 x else Seconds x
  | .timeout _ ms => ∀ x ∈ ms, RoundsToSeconds (1 / 1000) x
  | .deadline now spec => ∀ d ∈ spec.scheduledDuration, now + d < 2 ^ 63 * second

variable {r}

theorem isSome_fromSecsF64_iff {x : F64} : (Duration.fromSecsF64 x).isSome ↔ Seconds x := by
  cases x with
  | fin q => simp [Duration.fromSecsF64, Seconds, Option.isSome_iff_exists]
  | _ => simp [Duration.fromSecsF64, Seconds]

theorem isSome_nonNegative_iff {message : String} {x : F64} :
    (nonNegative message x).isSome ↔ ∀ q, x = .fin q → q < 2 ^ 64 := by
  cases x with
  | fin q =>
    have hlt : (F64.fin q).lt 0 = decide (q < 0) := rfl
    by_cases hq : q < 0
    · simpa [nonNegative, hlt, hq] using hq.trans (by norm_num)
    · simp [nonNegative, hlt, hq, F64.isFinite, isSome_fromSecsF64_iff, Seconds, not_lt.1 hq]
  | _ => simp [nonNegative, F64.isFinite]

theorem isSome_parse_iff {s : String} :
    (Dur.parse r s).isSome ↔ ∀ q, r.toF64 (trimmed s) = some (.fin q) → q < 2 ^ 64 := by
  unfold Dur.parse
  cases hx : r.toF64 (trimmed s) with
  | none => simp
  | some x => simp [isSome_nonNegative_iff]

theorem isSome_visit_iff {v : YamlScalar} :
    (DurVisitor.visit r v).isSome ↔ (DurationUse.yaml v).InRange r := by
  cases v with
  | str s => exact isSome_parse_iff
  | f64 x => exact isSome_nonNegative_iff
  | u64 | i64 => exact iff_of_true rfl trivial

theorem isSome_secondsOf_iff {x : Option F64} :
    (secondsOf x).isSome ↔ ∀ y ∈ x, Seconds y := by
  cases x with
  | none => simp [secondsOf]
  | some x => simp [secondsOf, isSome_fromSecsF64_iff]

theorem seconds_rounded_iff {q : ℚ} : Seconds (F64.rounded (.fin q)) ↔
    -2 ^ (-1075 : ℤ) ≤ q ∧ q < 2 ^ 64 - 2 ^ 10 := by
  have hlt : F64.roundQ q < 2 ^ 64 ↔ q < 2 ^ 64 - 2 ^ 10 :=
    F64.roundQ_lt_iff (k := 64) (by omega)
  rw [← F64.roundQ_nonneg_iff, ← hlt]
  by_cases h : |F64.roundQ q| < 2 ^ 1024
  · simp [F64.rounded_fin h, Seconds]
  · refine iff_of_false ?_ fun ⟨hnonneg, hlt⟩ => h ?_
    · rintro ⟨q', hq', -⟩
      simp only [F64.rounded, if_neg h, F64.signedInf] at hq'
      split_ifs at hq'
    · rw [abs_of_nonneg hnonneg]
      exact hlt.trans (pow_lt_pow_right₀ one_lt_two (by decide))

theorem seconds_mul_iff {k : ℚ} (hk : 0 < k) {x : F64} :
    Seconds (x * .fin k).rounded ↔ RoundsToSeconds k x := by
  cases x with
  | fin q =>
    have hmul : F64.fin q * .fin k = .fin (q * k) := rfl
    simp [hmul, seconds_rounded_iff, RoundsToSeconds]
  | nan => exact iff_of_false nofun nofun
  | posInf =>
    have hmul : F64.posInf * .fin k = .posInf := if_pos hk
    simp [hmul, F64.rounded, Seconds, RoundsToSeconds]
  | negInf =>
    have hmul : F64.negInf * .fin k = .negInf := (if_neg (by linarith)).trans (if_pos (by linarith))
    simp [hmul, F64.rounded, Seconds, RoundsToSeconds]

theorem isSome_parseDuration_iff {raw : String} :
    (SseLimits.parseDuration r raw).isSome ↔ (DurationUse.sse raw).InRange r := by
  simp only [SseLimits.parseDuration, DurationUse.InRange, sseNumber]
  by_cases hempty : (trimmed raw).isEmpty
  · simp [hempty]
  cases stripSuffix (trimmed raw) "ms" with
  | some num => simp [hempty]
  | none =>
    cases stripSuffix (trimmed raw) "s" with
    | some num => simp [hempty, isSome_secondsOf_iff]
    | none =>
      cases stripSuffix (trimmed raw) "m" with
      | some num => simp [hempty, isSome_secondsOf_iff, seconds_mul_iff]
      | none => simp [hempty, isSome_secondsOf_iff]

theorem isSome_hostTimeout_iff {http : Request.HttpDefaults} {ms : Option F64} :
    (Request.hostTimeout http ms).isSome ↔ ∀ x ∈ ms, RoundsToSeconds (1 / 1000) x := by
  cases ms with
  | none => simp [Request.hostTimeout]
  | some x =>
    have hdiv : x / .fin 1000 = x * .fin (1 / 1000) := by
      cases x with
      | fin q => exact congrArg F64.fin (by ring)
      | nan => rfl
      | posInf | negInf => decide +kernel
    rw [Request.hostTimeout, isSome_fromSecsF64_iff, hdiv, seconds_mul_iff (by norm_num)]
    simp

theorem foldlM_checkedAdd {limit a : ℕ} (ha : a < limit) (ds : List ℕ) :
    ds.foldlM (checkedAdd limit) a = checkedAdd limit a ds.sum := by
  induction ds generalizing a with
  | nil => simp [checkedAdd, ha]
  | cons d ds ih =>
    rw [List.foldlM_cons, List.sum_cons]
    by_cases hd : a + d < limit
    · rw [checkedAdd, if_pos hd]
      exact (ih hd).trans (by simp [checkedAdd, Nat.add_assoc])
    · simp [checkedAdd, hd]
      omega

theorem bind_sumDurations (now : ℕ) (ds : List ℕ) :
    (sumDurations ds).bind (addInstant now) = addInstant now ds.sum := by
  have hzero : 0 < 2 ^ 64 * second := by decide
  rw [sumDurations, foldlM_checkedAdd hzero, checkedAdd]
  split_ifs with hsum
  · simp
  · exact (if_neg (by simp only [second] at *; omega)).symm

theorem isSome_addInstant_iff {now d : ℕ} :
    (addInstant now d).isSome ↔ now + d < 2 ^ 63 * second := by
  simp [addInstant, checkedAdd]

theorem isSome_softDeadline_iff {now : ℕ} {spec : ExecutorSpec} :
    (spec.softDeadline now).isSome ↔ ∀ d ∈ spec.scheduledDuration, now + d < 2 ^ 63 * second := by
  cases spec with
  | externallyControlled _ duration =>
    cases duration <;>
      simp [ExecutorSpec.softDeadline, ExecutorSpec.scheduledDuration, isSome_addInstant_iff]
  | _ =>
    simp [ExecutorSpec.softDeadline, ExecutorSpec.scheduledDuration, bind_sumDurations,
      isSome_addInstant_iff]

/-- There is a result exactly for inputs in range. -/
theorem durations_returned_iff (r : Readers) (use : DurationUse) :
    use.returns r = true ↔ use.InRange r := by
  cases use with
  | text s => exact isSome_parse_iff
  | yaml v => exact isSome_visit_iff
  | sse raw => exact isSome_parseDuration_iff
  | timeout http ms => exact isSome_hostTimeout_iff
  | deadline now spec => exact isSome_softDeadline_iff

def twoNumbers : Readers where
  toF64 s :=
    if s = "1e20" then some (.fin (10 ^ 20)) else if s = "-1" then some (.fin (-1)) else none
  toU64 _ := none
  parseDuration _ := .error "expected number at 0"
  inRange := nofun

def endless : Scenario where
  executor := .constantVus
  vus := some 1
  duration := some (10 ^ 19 * second)

/-- `10^20` seconds in a plan, a negative number elsewhere, and a scenario of `10^19` seconds. -/
theorem durations_panic :
    (DurationUse.text "1e20").returns twoNumbers = false ∧
    (DurationUse.yaml (.f64 (.fin (10 ^ 20)))).returns twoNumbers = false ∧
    (DurationUse.sse "-1s").returns twoNumbers = false ∧
    (∀ http, (DurationUse.timeout http (some (.fin (-1)))).returns twoNumbers = false) ∧
    ∃ spec, executorSpec (fun _ => "") endless = .ok spec ∧
      (DurationUse.deadline 0 spec).returns twoNumbers = false := by
  refine ⟨by decide +kernel, by decide +kernel, by decide +kernel, fun http => ?_,
    .constantVus 1 (10 ^ 19 * second), by decide +kernel, by decide +kernel⟩
  exact (by decide +kernel :
    (Duration.fromSecsF64 (F64.rounded (.fin (-1) / .fin 1000))).isSome = false)

end Loadr
