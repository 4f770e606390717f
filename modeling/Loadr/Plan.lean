import Loadr.Lib.F64

/-!
# Executors of a plan

The executor fields of a scenario, and `Scenario::executor_spec`, which checks them and makes a
strict specification of them.  Durations are in nanoseconds; `display` writes a number into an error
message.
-/

namespace Loadr

inductive ExecutorKind
  | constantVus
  | rampingVus
  | constantArrivalRate
  | rampingArrivalRate
  | perVuIterations
  | sharedIterations
  | externallyControlled
deriving DecidableEq, Repr

def ExecutorKind.asStr : ExecutorKind → String
  | .constantVus => "constant-vus"
  | .rampingVus => "ramping-vus"
  | .constantArrivalRate => "constant-arrival-rate"
  | .rampingArrivalRate => "ramping-arrival-rate"
  | .perVuIterations => "per-vu-iterations"
  | .sharedIterations => "shared-iterations"
  | .externallyControlled => "externally-controlled"

/-- One ramp stage: reach `target` over `duration`. -/
structure Stage where
  duration : ℕ
  target : F64
deriving DecidableEq

structure Scenario where
  executor : ExecutorKind
  vus : Option ℕ := none
  duration : Option ℕ := none
  iterations : Option ℕ := none
  maxDuration : Option ℕ := none
  startVus : Option ℕ := none
  stages : List Stage := []
  rate : Option F64 := none
  startRate : Option F64 := none
  timeUnit : Option ℕ := none
  preAllocatedVus : Option ℕ := none
  maxVus : Option ℕ := none
deriving DecidableEq

inductive ExecutorSpec
  | constantVus (vus duration : ℕ)
  | rampingVus (startVus : ℕ) (stages : List (ℕ × ℕ))
  | constantArrivalRate (rate : F64) (duration preAllocatedVus maxVus : ℕ)
  | rampingArrivalRate (startRate : F64) (stages : List (ℕ × F64)) (preAllocatedVus maxVus : ℕ)
  | perVuIterations (vus iterations maxDuration : ℕ)
  | sharedIterations (vus iterations maxDuration : ℕ)
  | externallyControlled (maxVus : ℕ) (duration : Option ℕ)
deriving DecidableEq

namespace Scenario

def second : ℕ := 10 ^ 9

def asSecsF64 (d : ℕ) : F64 := .fin (d / second)

def defaultMaxDuration : ℕ := 600 * second

def required {α : Type} (s : Scenario) (field : String) : Option α → Except String α
  | some a => .ok a
  | none => .error ("`" ++ s.executor.asStr ++ "` requires `" ++ field ++ "`")

def refuse (bad : Bool) (message : String) : Except String Unit :=
  if bad then .error message else .ok ()

def atLeastOneStage (s : Scenario) : Except String Unit :=
  refuse s.stages.isEmpty
    ("`" ++ s.executor.asStr ++ "` requires at least one entry in `stages`")

def pool (s : Scenario) : Except String (ℕ × ℕ) := do
  let pre ← s.required "pre_allocated_vus" s.preAllocatedVus
  let maxVus := s.maxVus.getD pre
  refuse (maxVus < pre) "`max_vus` cannot be less than `pre_allocated_vus`"
  return (pre, maxVus)

def vuStage (display : F64 → String) (stage : Stage) : Except String (ℕ × ℕ) :=
  if stage.target.lt 0 || !stage.target.fract.eq 0 then
    .error ("`ramping-vus` stage targets must be non-negative integers, got " ++
      display stage.target)
  else .ok (stage.duration, stage.target.toU64)

def rateStage (perSecond : F64 → F64) (stage : Stage) : Except String (ℕ × F64) :=
  if stage.target.lt 0 then .error "`ramping-arrival-rate` stage targets must be non-negative"
  else .ok (stage.duration, perSecond stage.target)

def executorSpec (display : F64 → String) (s : Scenario) : Except String ExecutorSpec := do
  let timeUnit := s.timeUnit.getD second
  refuse (timeUnit == 0) "`time_unit` must be greater than zero"
  let perSecond (rate : F64) : F64 := rate / asSecsF64 timeUnit
  match s.executor with
  | .constantVus =>
    let vus ← s.required "vus" s.vus
    let duration ← s.required "duration" s.duration
    refuse (vus == 0) "`vus` must be at least 1"
    refuse (duration == 0) "`duration` must be greater than zero"
    return .constantVus vus duration
  | .rampingVus =>
    s.atLeastOneStage
    let stages ← s.stages.mapM (vuStage display)
    return .rampingVus (s.startVus.getD 0) stages
  | .constantArrivalRate =>
    let rate ← s.required "rate" s.rate
    let duration ← s.required "duration" s.duration
    let pre ← s.required "pre_allocated_vus" s.preAllocatedVus
    refuse (rate.le 0) "`rate` must be greater than zero"
    let (_, maxVus) ← s.pool
    return .constantArrivalRate (perSecond rate) duration pre maxVus
  | .rampingArrivalRate =>
    s.atLeastOneStage
    let (pre, maxVus) ← s.pool
    let stages ← s.stages.mapM (rateStage perSecond)
    return .rampingArrivalRate (perSecond (s.startRate.getD 0)) stages pre maxVus
  | .perVuIterations =>
    let vus ← s.required "vus" s.vus
    let iterations ← s.required "iterations" s.iterations
    refuse (vus == 0 || iterations == 0) "`vus` and `iterations` must be at least 1"
    return .perVuIterations vus iterations (s.maxDuration.getD defaultMaxDuration)
  | .sharedIterations =>
    let vus ← s.required "vus" s.vus
    let iterations ← s.required "iterations" s.iterations
    refuse (vus == 0 || iterations == 0) "`vus` and `iterations` must be at least 1"
    return .sharedIterations vus iterations (s.maxDuration.getD defaultMaxDuration)
  | .externallyControlled =>
    let maxVus ← s.required "max_vus" s.maxVus
    refuse (maxVus == 0) "`max_vus` must be at least 1"
    return .externallyControlled maxVus s.duration

end Scenario

end Loadr
