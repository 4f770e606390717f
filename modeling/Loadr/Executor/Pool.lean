import Loadr.Executor.Arrival
import Loadr.Executor.Partition

/-!
# Executors and their VUs

The seven executors as pools of VU tasks.  `run_constant_vus` and `run_iterations` spawn a task for
each VU; `run_allocated_pool` spawns one for each slot, which makes its VU when the slot is first
allowed to run; arrival-rate executors let their pool grow.  An executor makes no more VUs than its
specification has capacity for (`created_next`, `bound_next`, `bound_ofSpec`).
-/

namespace Loadr

open Option List

namespace Executor

structure Env where
  /-- The scenario is cancelled, the run is stopped or the deadline has passed. -/
  stopped : Bool := false
  cancelled : Bool := false
  paused : Bool := false
  keepGoing : Bool := true
  /-- The allocation has changed, or nobody can change it any more. -/
  changed : Bool := true
  senderGone : Bool := false
  /-- A running slot has been deallocated for longer than the grace period. -/
  deallocated : Bool := false
deriving DecidableEq, Repr

/-! ## Closed models -/

inductive Budget
  /-- `run_constant_vus` has none. -/
  | unlimited
  | perVu (iterations : ℕ)
  | shared (remaining : ℕ)
deriving DecidableEq, Repr

/-- Where a VU task stands; `done` counts its iterations. -/
inductive Task
  | spawned
  | looping (done : ℕ)
  | unpausing (done : ℕ)
  | running (done : ℕ)
  | over
deriving DecidableEq, Repr

structure Closed where
  budget : Budget
  left : ℕ
  tasks : List Task := []
deriving DecidableEq, Repr

def Budget.claim (done : ℕ) : Budget → Option Budget
  | .unlimited => some .unlimited
  | .perVu iterations => if iterations ≤ done then none else some (.perVu iterations)
  | .shared 0 => none
  | .shared (remaining + 1) => some (.shared remaining)

/-- The next step of a VU task, and whether it takes an id. -/
def Task.step (env : Env) (budget : Budget) : Task → Option (Task × Budget × Bool)
  | .spawned => some (.looping 0, budget, true)
  | .looping done =>
    if env.stopped then some (.over, budget, false)
    else
      match budget.claim done with
      | none => some (.over, budget, false)
      | some budget => some (.unpausing done, budget, false)
  | .unpausing done =>
    if env.cancelled then some (.over, budget, false)
    else if env.paused then none
    else some (.running done, budget, false)
  | .running done => some (if env.keepGoing then .looping (done + 1) else .over, budget, false)
  | .over => none

/-! ## Allocated pools -/

inductive SlotStage
  | looping
  | parked
  | unpausing
  | running
  | over
deriving DecidableEq, Repr

structure Slot where
  stage : SlotStage := .looping
  /-- The slot has made its VU, and keeps it. -/
  worker : Bool := false
deriving DecidableEq, Repr

structure Pool where
  left : ℕ
  /-- Slot `i` runs while `i < allowed`. -/
  allowed : ℕ
  slots : List Slot := []
deriving DecidableEq, Repr

def Slot.step (env : Env) (allowed i : ℕ) (slot : Slot) : Option (Slot × Bool) :=
  match slot.stage with
  | .looping =>
    if env.stopped then some ({ slot with stage := .over }, false)
    else if allowed ≤ i then some ({ slot with stage := .parked }, false)
    else some ({ slot with stage := .unpausing }, false)
  | .parked =>
    if env.cancelled || env.senderGone then some ({ slot with stage := .over }, false)
    else if env.changed then some ({ slot with stage := .looping }, false)
    else none
  | .unpausing =>
    if env.cancelled then some ({ slot with stage := .over }, false)
    else if env.paused then none
    else some ({ stage := .running, worker := true }, !slot.worker)
  | .running =>
    if env.cancelled then some ({ slot with stage := .over }, false)
    else if env.deallocated then some ({ slot with stage := .looping }, false)
    else some ({ slot with stage := if env.keepGoing then .looping else .over }, false)
  | .over => none

end Executor

/-! ## Executors -/

inductive Executor
  | closed (p : Executor.Closed)
  | pool (p : Executor.Pool)
  | arrival (cfg : Arrival.Config) (s : Arrival.State)
deriving DecidableEq, Repr

namespace Executor

inductive Action
  | spawn
  | task (j : ℕ) (env : Env)
  | allow (n : ℕ)
  | arrival (act : Arrival.Action)
deriving DecidableEq, Repr

def peak (startVus : ℕ) (stages : List (ℕ × ℕ)) : ℕ :=
  ((stages.map (·.2)) ++ [startVus]).max?.getD 0

/-- `run_scenario` hands the specification to its executor. -/
def ofSpec (tick : ℕ) : ExecutorSpec → Executor
  | .constantVus vus _ => .closed { budget := .unlimited, left := vus }
  | .perVuIterations vus iterations _ => .closed { budget := .perVu iterations, left := vus }
  | .sharedIterations vus iterations _ => .closed { budget := .shared iterations, left := vus }
  | .rampingVus startVus stages => .pool { left := peak startVus stages, allowed := startVus }
  | .externallyControlled maxVus _ => .pool { left := maxVus, allowed := 0 }
  | .constantArrivalRate _ _ preAllocatedVus maxVus
  | .rampingArrivalRate _ _ preAllocatedVus maxVus =>
    .arrival ⟨preAllocatedVus, maxVus, tick⟩ (Arrival.initial ⟨preAllocatedVus, maxVus, tick⟩)

/-- An arrival worker takes its id when it is first polled. -/
def arrivalTakes (s : Arrival.State) : Arrival.Action → Bool
  | .work j _ => s.workers[j]? == some .spawned
  | .dispatch _ => false

/-- A step of an executor, and whether it takes a VU id. -/
def next : Executor → Action → Option (Executor × Bool)
  | .closed p, .spawn =>
    match p.left with
    | 0 => none
    | left + 1 => some (.closed { p with left := left, tasks := p.tasks ++ [.spawned] }, false)
  | .closed p, .task j env =>
    p.tasks[j]?.bind fun task => (task.step env p.budget).map fun (task', budget, takes) =>
      (.closed { p with budget := budget, tasks := p.tasks.set j task' }, takes)
  | .pool p, .spawn =>
    match p.left with
    | 0 => none
    | left + 1 => some (.pool { p with left := left, slots := p.slots ++ [{}] }, false)
  | .pool p, .task j env =>
    p.slots[j]?.bind fun slot => (slot.step env p.allowed j).map fun (slot', takes) =>
      (.pool { p with slots := p.slots.set j slot' }, takes)
  | .pool p, .allow n => some (.pool { p with allowed := n }, false)
  | .arrival cfg s, .arrival act =>
    (Arrival.next cfg s act).map fun s' => (.arrival cfg s', arrivalTakes s act)
  | _, _ => none

def created : Executor → ℕ
  | .closed p => p.tasks.countP (· != .spawned)
  | .pool p => p.slots.countP Slot.worker
  | .arrival _ s => s.workers.countP (· != .spawned)

def bound : Executor → ℕ
  | .closed p => p.tasks.length + p.left
  | .pool p => p.slots.length + p.left
  | .arrival cfg s => max (s.workers.length + s.dispatcher.left) cfg.maxVus

/-! ## Ids and tasks -/

section

variable {x x' : Executor} {act : Action} {takes : Bool}

theorem Task.step_takes {env : Env} {budget budget' : Budget} {task task' : Task}
    (h : task.step env budget = some (task', budget', takes)) :
    (task' != .spawned).toNat = (task != .spawned).toNat + takes.toNat := by
  cases task with
  | spawned =>
    cases h
    rfl
  | looping done =>
    simp only [step] at h
    split_ifs at h
    · cases h
      rfl
    · split at h <;> cases h <;> rfl
  | unpausing done =>
    simp only [step] at h
    split_ifs at h <;> cases h <;> rfl
  | running done =>
    cases h
    split <;> rfl
  | _ => cases h

theorem Slot.step_takes {env : Env} {allowed i : ℕ} {slot slot' : Slot}
    (h : slot.step env allowed i = some (slot', takes)) :
    slot'.worker.toNat = slot.worker.toNat + takes.toNat := by
  unfold step at h
  split at h
  case h_3 =>
    split_ifs at h <;> cases h
    · rfl
    · cases slot.worker <;> rfl
  case h_5 => cases h
  all_goals
    split_ifs at h
    all_goals
      cases h
      rfl

theorem Worker.step_ne_spawned {env : Arrival.Env} {g g' : Arrival.Gate} {j n : ℕ}
    {w w' : Arrival.Worker} (h : w.step env g j = some (w', g', n)) : w' ≠ .spawned := by
  have hasked : ∀ {taken empty closed r},
      some (Arrival.Worker.asked g taken empty closed r) = some (w', g', n) →
      taken ≠ .spawned → empty ≠ .spawned → closed ≠ .spawned → w' ≠ .spawned := by
    rintro taken empty closed ⟨_ | _ | _, b⟩ h h₁ h₂ h₃ <;> cases h
    · exact h₁
    · exact h₂
    · exact h₃
  cases w <;> simp only [Arrival.Worker.step] at h
  case claiming => exact hasked h (by simp) (by simp) (by simp)
  case entering | waiting =>
    split_ifs at h
    · cases h
      simp
    · exact hasked h (by simp) (by simp) (by simp)
  case done => cases h
  all_goals
    try split_ifs at h
    all_goals
      cases h
      simp

inductive Step : Executor → Action → Executor → Bool → Prop
  | spawnTask {p : Closed} {left : ℕ} (h : p.left = left + 1) :
      Step (.closed p) .spawn (.closed { p with left, tasks := p.tasks ++ [.spawned] }) false
  | task {p : Closed} {j : ℕ} {env : Env} {task task' : Task} {budget : Budget} {takes : Bool}
      (hj : p.tasks[j]? = some task) (h : task.step env p.budget = some (task', budget, takes)) :
      Step (.closed p) (.task j env) (.closed { p with budget, tasks := p.tasks.set j task' }) takes
  | spawnSlot {p : Pool} {left : ℕ} (h : p.left = left + 1) :
      Step (.pool p) .spawn (.pool { p with left, slots := p.slots ++ [{}] }) false
  | slot {p : Pool} {j : ℕ} {env : Env} {slot slot' : Slot} {takes : Bool}
      (hj : p.slots[j]? = some slot) (h : slot.step env p.allowed j = some (slot', takes)) :
      Step (.pool p) (.task j env) (.pool { p with slots := p.slots.set j slot' }) takes
  | allow (p : Pool) (n : ℕ) : Step (.pool p) (.allow n) (.pool { p with allowed := n }) false
  | arrival {cfg : Arrival.Config} {s s' : Arrival.State} {act : Arrival.Action}
      (h : Arrival.next cfg s act = some s') :
      Step (.arrival cfg s) (.arrival act) (.arrival cfg s') (arrivalTakes s act)

theorem step_of_next (h : x.next act = some (x', takes)) : Step x act x' takes := by
  unfold next at h
  split at h
  · split at h <;> cases h
    exact .spawnTask (by assumption)
  · obtain ⟨task, hj, h⟩ := bind_eq_some_iff.1 h
    obtain ⟨⟨task', budget, takes'⟩, hstep, he⟩ := map_eq_some_iff.1 h
    cases he
    exact .task hj hstep
  · split at h <;> cases h
    exact .spawnSlot (by assumption)
  · obtain ⟨slot, hj, h⟩ := bind_eq_some_iff.1 h
    obtain ⟨⟨slot', takes'⟩, hstep, he⟩ := map_eq_some_iff.1 h
    cases he
    exact .slot hj hstep
  · cases h
    exact .allow _ _
  · obtain ⟨s', hs', he⟩ := map_eq_some_iff.1 h
    cases he
    exact .arrival hs'
  · cases h

theorem created_next (h : x.next act = some (x', takes)) : x'.created = x.created + takes.toNat := by
  cases step_of_next h with
  | spawnTask | spawnSlot => simp [created]
  | @task p j env task task' budget _ hj hstep =>
    have hcount := Arrival.countP_set_toNat (p := (· != Task.spawned)) (b := task') hj
    have htakes := Task.step_takes hstep
    show (p.tasks.set j task').countP _ = p.tasks.countP _ + takes.toNat
    omega
  | @slot p j env slot slot' _ hj hstep =>
    have hcount := Arrival.countP_set_toNat (p := Slot.worker) (b := slot') hj
    have htakes := Slot.step_takes hstep
    show (p.slots.set j slot').countP _ = p.slots.countP _ + takes.toNat
    omega
  | allow => rfl
  | @arrival cfg s s' act hs' =>
    cases act with
    | dispatch env =>
      obtain ⟨⟨k, hk⟩, -⟩ := Arrival.workers_dispatch hs'
      show s'.workers.countP _ = s.workers.countP _ + 0
      rw [hk]
      simp
    | work j env =>
      obtain ⟨w, hw, hs'⟩ := bind_eq_some_iff.1 hs'
      obtain ⟨⟨w', g, n⟩, hstep, rfl⟩ := map_eq_some_iff.1 hs'
      have hcount := Arrival.countP_set_toNat (p := (· != Arrival.Worker.spawned)) (b := w') hw
      have hne := bne_iff_ne.2 (Worker.step_ne_spawned hstep)
      show (s.workers.set j w').countP _ = s.workers.countP _ + _
      rw [hne] at hcount
      by_cases hsp : w = .spawned
      · subst hsp
        rw [arrivalTakes, hw]
        exact hcount
      · rw [bne_iff_ne.2 hsp] at hcount
        have htakes : (some w == some Arrival.Worker.spawned) = false := by simpa using hsp
        rw [arrivalTakes, hw, htakes]
        exact Nat.add_right_cancel hcount

theorem bound_next (h : x.next act = some (x', takes)) : x'.bound ≤ x.bound := by
  cases step_of_next h with
  | spawnTask h | spawnSlot h =>
    simp only [bound, length_append, length_singleton]
    omega
  | task | slot => simp [bound]
  | allow => exact le_rfl
  | @arrival cfg s s' act hs' =>
    cases act with
    | dispatch env => exact (Arrival.workers_dispatch hs').2
    | work j env =>
      obtain ⟨w, hw, hs'⟩ := bind_eq_some_iff.1 hs'
      obtain ⟨⟨w', g, n⟩, -, rfl⟩ := map_eq_some_iff.1 hs'
      simp [bound]

theorem created_le_bound (x : Executor) : x.created ≤ x.bound := by
  cases x with
  | closed | pool => exact (countP_le_length).trans (Nat.le_add_right _ _)
  | arrival cfg s =>
    exact (countP_le_length).trans ((Nat.le_add_right _ _).trans (le_max_left _ _))

theorem max?_concat (l : List ℕ) (a : ℕ) : (l ++ [a]).max? = some (l.foldl max a) := by
  induction l with
  | nil => rfl
  | cons b l ih =>
    rw [cons_append, max?_cons, ih, foldl_cons, max_comm a b, foldl_assoc]
    rfl

theorem bound_ofSpec (tick : ℕ) (spec : ExecutorSpec) :
    (ofSpec tick spec).bound = vuCapacity spec := by
  cases spec with
  | constantVus | perVuIterations | sharedIterations | externallyControlled => exact Nat.zero_add _
  | rampingVus startVus stages => exact (Nat.zero_add _).trans (by rw [peak, max?_concat]; rfl)
  | constantArrivalRate | rampingArrivalRate => exact congrArg (max · _) (Nat.zero_add _)

end

end Executor

end Loadr
