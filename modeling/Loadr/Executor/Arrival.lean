import Loadr.Lib.Machine
import Loadr.Lib.Semaphore

/-!
# Arrival-rate executors

`run_arrival_rate`: a dispatcher publishes the arrivals that are due as permits of a semaphore, and
its workers claim them, one permit for one iteration.  Permits that nobody claims within a tick, or
before a pause or the end, are swept and recorded as dropped iterations.  A step is one access to
what they share; the clock, the pause flag, the stop tokens and the rate schedule are the
environment's.
-/

namespace Loadr

open List Option

namespace Arrival

/-- The hand-off state between the dispatcher and its workers. -/
structure Gate where
  budget : Semaphore ℕ := {}
  parked : ℕ := 0
  closed : Bool := false
deriving DecidableEq, Repr

inductive Worker
  | spawned
  /-- Looks at the pause flag. -/
  | looping
  | paused
  | claiming
  | parking
  /-- Counted as parked; the permit has not been asked for yet. -/
  | entering
  | waiting
  /-- Cancelled or closed out of the wait, which is dropped next. -/
  | leaving
  /-- The park guard is dropped next. -/
  | unparking (claimed : Bool)
  | running
  | done
deriving DecidableEq, Repr

/-- Where the dispatcher stands.  `elapsed` is set when the schedule's deadline has passed. -/
inductive Dispatcher
  | allocating (left : ℕ)
  | ticking
  | expiring (elapsed : Bool)
  | crediting (elapsed : Bool)
  | growing (due : ℕ) (elapsed : Bool)
  | publishing (due : ℕ) (elapsed : Bool)
  /-- The last batch lives out its claim window. -/
  | draining
  | flushing
  | closing
  | cancelling
  | sweeping
  | joining
  | collecting
  | returned
deriving DecidableEq, Repr

def Dispatcher.left : Dispatcher → ℕ
  | .allocating left => left
  | _ => 0

structure Config where
  preAllocated : ℕ
  maxVus : ℕ
  tick : ℕ
deriving DecidableEq, Repr

structure Env where
  now : ℕ := 0
  paused : Bool := false
  cancelled : Bool := false
  softStopped : Bool := false
  /-- The dispatcher wakes at the deadline, or later. -/
  elapsed : Bool := false
  /-- The whole arrivals that the schedule has come to owe. -/
  due : ℕ := 0
  /-- A paused worker sees the closure first. -/
  closedFirst : Bool := false
  keepGoing : Bool := true
deriving DecidableEq, Repr

structure State where
  gate : Gate
  workers : List Worker
  dispatcher : Dispatcher
  expiry : Option ℕ
  published : ℕ
  claimed : ℕ
  dropped : ℕ
deriving DecidableEq, Repr

inductive Action
  | dispatch (env : Env)
  | work (j : ℕ) (env : Env)
deriving DecidableEq, Repr

/-! ## Workers -/

/-- Worker `j` has asked for a permit: it goes on according to what it has got, and has claimed an
arrival if it has got one. -/
def Worker.asked (g : Gate) (taken empty closed : Worker) :
    Semaphore.Attempt × Semaphore ℕ → Worker × Gate × ℕ
  | (.taken, budget) => (taken, { g with budget := budget }, 1)
  | (.empty, budget) => (empty, { g with budget := budget }, 0)
  | (.closed, budget) => (closed, { g with budget := budget }, 0)

def Worker.step (env : Env) (g : Gate) (j : ℕ) : Worker → Option (Worker × Gate × ℕ)
  | .spawned => some (.looping, g, 0)
  | .looping => some (if env.paused then .paused else .claiming, g, 0)
  | .paused =>
    if g.closed && env.closedFirst then some (.done, g, 0)
    else if env.cancelled then some (.done, g, 0)
    else if env.paused then none
    else some (.looping, g, 0)
  | .claiming => some (asked g .running .parking .done g.budget.tryAcquire)
  | .parking => some (.entering, { g with parked := g.parked + 1 }, 0)
  | .entering =>
    if env.cancelled then some (.leaving, g, 0)
    else some (asked g (.unparking true) .waiting .leaving (g.budget.acquire j))
  | .waiting =>
    if env.cancelled then some (.leaving, g, 0)
    else some (asked g (.unparking true) .waiting .leaving (g.budget.poll j))
  | .leaving => some (.unparking false, { g with budget := g.budget.leave j }, 0)
  | .unparking claimed =>
    some (if claimed then .running else .done, { g with parked := g.parked - 1 }, 0)
  | .running => some (if env.keepGoing then .looping else .done, g, 0)
  | .done => none

/-! ## The dispatcher -/

/-- All free permits are recorded as dropped. -/
def State.takeUnclaimed (s : State) : State :=
  { s with
    gate := { s.gate with budget := s.gate.budget.forgetPermits.2 }
    dropped := s.dropped + s.gate.budget.forgetPermits.1 }

/-- The active batch is swept once its deadline has come. -/
def State.expireDue (s : State) (now : ℕ) : State :=
  if s.expiry.any fun at_ => decide (at_ ≤ now) then { s with expiry := none }.takeUnclaimed else s

/-- A pause expires what was already published. -/
def State.expirePaused (s : State) : State :=
  if s.expiry.isSome then { s with expiry := none }.takeUnclaimed else s

def State.publish (s : State) (cfg : Config) (due now : ℕ) : State :=
  { s with
    gate := { s.gate with budget := s.gate.budget.addPermits due }
    expiry := some (s.expiry.getD (now + cfg.tick))
    published := s.published + due }

/-- The workers a batch that the parked ones cannot absorb adds to the pool. -/
def growth (cfg : Config) (due parked allocated : ℕ) : ℕ :=
  min (due - parked) (cfg.maxVus - allocated)

/-- Back to the ticker, or on to the natural end. -/
def Dispatcher.after (elapsed : Bool) : Dispatcher := if elapsed then .draining else .ticking

def State.goto (s : State) (pc : Dispatcher) : State := { s with dispatcher := pc }

def State.spawn (s : State) (n : ℕ) : State :=
  { s with workers := s.workers ++ List.replicate n .spawned }

def State.dispatch (cfg : Config) (env : Env) (s : State) : Option State :=
  match s.dispatcher with
  | .allocating 0 => some (s.goto .ticking)
  | .allocating (left + 1) => some ((s.spawn 1).goto (.allocating left))
  | .ticking =>
    if env.cancelled || env.softStopped then some (s.goto .closing)
    else some (s.goto (.expiring env.elapsed))
  | .expiring elapsed => some ((s.expireDue env.now).goto (.crediting elapsed))
  | .crediting elapsed =>
    if env.paused then some (s.expirePaused.goto (.after elapsed))
    else if env.due = 0 then some (s.goto (.after elapsed))
    else some (s.goto (.growing env.due elapsed))
  | .growing due elapsed =>
    -- every worker spawned so far counts as allocated
    some ((s.spawn (growth cfg due s.gate.parked s.workers.length)).goto (.publishing due elapsed))
  | .publishing due elapsed => some ((s.publish cfg due env.now).goto (.after elapsed))
  | .draining =>
    if s.expiry.isNone then some (s.goto .closing)
    else if env.cancelled || env.softStopped then some (s.goto .closing)
    else some (s.goto .flushing)
  | .flushing =>
    if env.paused then some (s.expirePaused.goto .closing)
    else some ((s.expireDue env.now).goto .draining)
  | .closing =>
    some ({ s with gate := { s.gate with budget := s.gate.budget.close } }.goto .cancelling)
  | .cancelling => some ({ s with gate := { s.gate with closed := true } }.goto .sweeping)
  | .sweeping => some (s.takeUnclaimed.goto .joining)
  | .joining => if s.workers.all (· == .done) then some (s.goto .collecting) else none
  | .collecting => some (s.takeUnclaimed.goto .returned)
  | .returned => none

/-! ## The executor -/

def next (cfg : Config) (s : State) : Action → Option State
  | .dispatch env => s.dispatch cfg env
  | .work j env => s.workers[j]?.bind fun w => (w.step env s.gate j).map fun (w', gate, n) =>
    { s with gate := gate, workers := s.workers.set j w', claimed := s.claimed + n }

def initial (cfg : Config) : State where
  gate := {}
  workers := []
  dispatcher := .allocating cfg.preAllocated
  expiry := none
  published := 0
  claimed := 0
  dropped := 0

def machine (cfg : Config) : Machine State Action where
  init s := s = initial cfg
  next := next cfg

/-! ## What a worker does to the gate -/

def Worker.isParked : Worker → Bool
  | .entering | .waiting | .leaving | .unparking _ => true
  | _ => false

/-- The worker may be in the queue or have a permit assigned. -/
def Worker.isQueued : Worker → Bool
  | .waiting | .leaving => true
  | _ => false

/-- The ways in which a step of worker `j` touches the gate; `n` is the number of arrivals it
claims. -/
inductive Worker.Step (g : Gate) (j : ℕ) : Worker → Worker → Gate → ℕ → Prop
  | still {w w' : Worker} : w'.isParked = w.isParked → (w.isQueued = true → w'.isQueued = true) →
    Step g j w w' g 0
  | tries {w' : Worker} {r : Semaphore.Attempt} {b : Semaphore ℕ} : g.budget.tryAcquire = (r, b) →
    w'.isParked = false → Step g j .claiming w' { g with budget := b } r.taking
  | parks : Step g j .parking .entering { g with parked := g.parked + 1 } 0
  | asks {w' : Worker} {r : Semaphore.Attempt} {b : Semaphore ℕ} : g.budget.acquire j = (r, b) →
    w'.isParked = true → (r = .empty → w' = .waiting) →
    Step g j .entering w' { g with budget := b } r.taking
  | polls {w' : Worker} {r : Semaphore.Attempt} {b : Semaphore ℕ} : g.budget.poll j = (r, b) →
    w'.isParked = true → (r ≠ .taken → w'.isQueued = true) →
    Step g j .waiting w' { g with budget := b } r.taking
  | leaves : Step g j .leaving (.unparking false) { g with budget := g.budget.leave j } 0
  | unparks {w' : Worker} {claimed : Bool} : w'.isParked = false →
    Step g j (.unparking claimed) w' { g with parked := g.parked - 1 } 0

section

variable {env : Env} {g g' : Gate} {j n : ℕ} {w w' : Worker}

theorem Worker.step_cases (h : w.step env g j = some (w', g', n)) : Step g j w w' g' n := by
  cases w with
  | spawned =>
    cases h
    exact .still rfl nofun
  | looping | running =>
    cases h
    exact .still (by split <;> rfl) nofun
  | paused =>
    simp only [step] at h
    split_ifs at h <;> cases h
    all_goals exact .still rfl nofun
  | claiming =>
    cases hr : g.budget.tryAcquire with
    | mk r b =>
      simp only [step, hr] at h
      cases r <;> cases h <;> exact .tries hr rfl
  | parking =>
    cases h
    exact .parks
  | entering =>
    simp only [step] at h
    split_ifs at h
    · cases h
      exact .still rfl fun _ => rfl
    · cases hr : g.budget.acquire j with
      | mk r b =>
        rw [hr] at h
        cases r <;> cases h
        · exact .asks hr rfl nofun
        · exact .asks hr rfl fun _ => rfl
        · exact .asks hr rfl nofun
  | waiting =>
    simp only [step] at h
    split_ifs at h
    · cases h
      exact .still rfl fun _ => rfl
    · cases hr : g.budget.poll j with
      | mk r b =>
        rw [hr] at h
        cases r <;> cases h
        · exact .polls hr rfl fun hne => absurd rfl hne
        · exact .polls hr rfl fun _ => rfl
        · exact .polls hr rfl fun _ => rfl
  | leaving =>
    cases h
    exact .leaves
  | unparking claimed =>
    cases h
    exact .unparks (by split <;> rfl)
  | done => cases h

theorem Worker.Step.total (h : Step g j w w' g' n) : g'.budget.total + n = g.budget.total := by
  cases h with
  | still | parks | unparks => rfl
  | tries hr => exact Semaphore.total_tryAcquire hr
  | asks hr => exact Semaphore.total_acquire hr
  | polls hr => exact Semaphore.total_poll hr
  | leaves => exact Semaphore.total_leave _ _

theorem Worker.Step.parked (h : Step g j w w' g' n) (hpos : w.isParked = true → 0 < g.parked) :
    g'.parked + w.isParked.toNat = g.parked + w'.isParked.toNat := by
  cases h with
  | still hp => rw [hp]
  | tries _ hp => rw [hp]; rfl
  | parks | leaves => rfl
  | asks _ hp | polls _ hp => rw [hp]; rfl
  | unparks hp =>
    have := hpos rfl
    rw [hp]
    show g.parked - 1 + 1 = g.parked + 0
    omega

theorem Worker.Step.closed (h : Step g j w w' g' n) (hc : g.budget.closed = true) :
    g'.budget.closed = true ∧ n = 0 := by
  cases h with
  | still | parks | unparks => exact ⟨hc, rfl⟩
  | tries hr =>
    rw [Semaphore.tryAcquire_closed hc] at hr
    cases hr
    exact ⟨hc, rfl⟩
  | asks hr =>
    rw [Semaphore.acquire_closed hc] at hr
    cases hr
    exact ⟨hc, rfl⟩
  | polls hr =>
    rw [Semaphore.poll_closed hc] at hr
    cases hr
    exact ⟨hc, rfl⟩
  | leaves => exact ⟨(Semaphore.closed_leave _ _).trans hc, rfl⟩

theorem Worker.Step.tasks (h : Step g j w w' g' n) (hnodup : g.budget.tasks.Nodup)
    (hj : j ∈ g.budget.tasks → w.isQueued = true) :
    g'.budget.tasks.Nodup ∧ (∀ i ∈ g'.budget.tasks, i = j ∨ i ∈ g.budget.tasks) ∧
      (j ∈ g'.budget.tasks → w'.isQueued = true) := by
  cases h with
  | still _ hq => exact ⟨hnodup, fun i hi => .inr hi, fun hi => hq (hj hi)⟩
  | parks | unparks => exact ⟨hnodup, fun i hi => .inr hi, fun hi => nomatch hj hi⟩
  | @tries w' r b hr =>
    show b.tasks.Nodup ∧ (∀ i ∈ b.tasks, _) ∧ (j ∈ b.tasks → _)
    rw [Semaphore.tasks_tryAcquire hr]
    exact ⟨hnodup, fun i hi => .inr hi, fun hi => nomatch hj hi⟩
  | @asks w' r b hr _ hw =>
    have hnot : j ∉ g.budget.tasks := fun hi => nomatch hj hi
    rcases Semaphore.tasks_acquire hr with he | ⟨rfl, hperm⟩
    · show b.tasks.Nodup ∧ (∀ i ∈ b.tasks, _) ∧ (j ∈ b.tasks → _)
      rw [he]
      exact ⟨hnodup, fun i hi => .inr hi, fun hi => absurd hi hnot⟩
    · refine ⟨hperm.nodup_iff.2 (nodup_cons.2 ⟨hnot, hnodup⟩), fun i hi => ?_, fun _ => ?_⟩
      · exact mem_cons.1 (hperm.mem_iff.1 hi)
      · rw [hw rfl]
        rfl
  | @polls w' r b hr _ hw =>
    rcases Semaphore.tasks_poll hr with ⟨he, hne⟩ | ⟨rfl, hperm⟩
    · show b.tasks.Nodup ∧ (∀ i ∈ b.tasks, _) ∧ (j ∈ b.tasks → _)
      rw [he]
      exact ⟨hnodup, fun i hi => .inr hi, fun _ => hw hne⟩
    · obtain ⟨hnot, hnodup'⟩ := nodup_cons.1 (hperm.nodup_iff.2 hnodup)
      exact ⟨hnodup', fun i hi => .inr (hperm.mem_iff.1 (mem_cons_of_mem _ hi)),
        fun hi => absurd hi hnot⟩
  | leaves =>
    have hperm := Semaphore.perm_tasks_leave g.budget j
    refine ⟨hperm.nodup_iff.2 (hnodup.erase j), fun i hi => ?_, fun hi => ?_⟩
    · exact .inr (mem_of_mem_erase (hperm.mem_iff.1 hi))
    · cases hnodup.not_mem_erase (hperm.mem_iff.1 hi)

end

/-! ## What the dispatcher does -/

/-- The dispatcher is past its allocations and has not joined its workers. -/
def Dispatcher.plain : Dispatcher → Bool
  | .allocating _ | .collecting | .returned => false
  | _ => true

theorem Dispatcher.of_plain {pc : Dispatcher} (h : pc.plain) :
    pc.left = 0 ∧ pc ≠ .collecting ∧ pc ≠ .returned := by
  cases pc <;> simp_all [plain, left]

variable {cfg : Config} {s s' : State} {act : Action}

/-- The ways in which a step of the dispatcher changes the state. -/
inductive Dispatched (cfg : Config) (s : State) : State → Prop
  | moves {pc : Dispatcher} : pc.plain → Dispatched cfg s (s.goto pc)
  | spawns {n : ℕ} {pc : Dispatcher} : ¬(s.dispatcher = .collecting ∨ s.dispatcher = .returned) →
    pc ≠ .collecting ∧ pc ≠ .returned →
    max (s.workers.length + n + pc.left) cfg.maxVus ≤
      max (s.workers.length + s.dispatcher.left) cfg.maxVus →
    Dispatched cfg s ((s.spawn n).goto pc)
  | sweeps (expiry : Option ℕ) {pc : Dispatcher} : pc.plain →
    Dispatched cfg s ({ s with expiry := expiry }.takeUnclaimed.goto pc)
  | publishes (due now : ℕ) {pc : Dispatcher} : s.dispatcher ≠ .returned → pc.plain →
    Dispatched cfg s ((s.publish cfg due now).goto pc)
  | closes :
    Dispatched cfg s ({ s with gate := { s.gate with budget := s.gate.budget.close } }.goto
      .cancelling)
  | cancels : Dispatched cfg s ({ s with gate := { s.gate with closed := true } }.goto .sweeping)
  | joins : (∀ w ∈ s.workers, w = .done) → Dispatched cfg s (s.goto .collecting)
  | collects : s.dispatcher = .collecting → Dispatched cfg s (s.takeUnclaimed.goto .returned)

theorem plain_after (elapsed : Bool) : (Dispatcher.after elapsed).plain := by
  cases elapsed <;> rfl

theorem dispatched {env : Env} (hs : s.dispatch cfg env = some s') : Dispatched cfg s s' := by
  have hdue : ∀ {pc}, pc.plain → Dispatched cfg s ((s.expireDue env.now).goto pc) := by
    intro pc hpc
    unfold State.expireDue
    split
    · exact .sweeps none hpc
    · exact .moves hpc
  have hpaused : ∀ {pc : Dispatcher}, pc.plain → Dispatched cfg s (s.expirePaused.goto pc) := by
    intro pc hpc
    unfold State.expirePaused
    split
    · exact .sweeps none hpc
    · exact .moves hpc
  unfold State.dispatch at hs
  split at hs <;> rename_i hd <;> (try split_ifs at hs with hif) <;> cases hs <;>
    try exact .moves rfl
  · exact .spawns (by simp [hd]) ⟨nofun, nofun⟩ (by simp [hd, Dispatcher.left]; omega)
  · exact hdue rfl
  · exact hpaused (plain_after _)
  · exact .moves (plain_after _)
  · refine .spawns (by simp [hd]) ⟨nofun, nofun⟩ ?_
    simp only [hd, Dispatcher.left, growth]
    omega
  · exact .publishes _ _ (by simp [hd]) (plain_after _)
  · exact hpaused rfl
  · exact hdue rfl
  · exact .closes
  · exact .cancels
  · exact .sweeps s.expiry rfl
  · exact .joins (by simpa using hif)
  · exact .collects hd

theorem workers_dispatch {env : Env} (hs : s.dispatch cfg env = some s') :
    (∃ k, s'.workers = s.workers ++ List.replicate k .spawned) ∧
      max (s'.workers.length + s'.dispatcher.left) cfg.maxVus ≤
        max (s.workers.length + s.dispatcher.left) cfg.maxVus := by
  have hsame : ∀ {s₁ : State} {pc : Dispatcher}, s₁.workers = s.workers → pc.left = 0 →
      (∃ k, (s₁.goto pc).workers = s.workers ++ List.replicate k .spawned) ∧
        max ((s₁.goto pc).workers.length + pc.left) cfg.maxVus ≤
          max (s.workers.length + s.dispatcher.left) cfg.maxVus := by
    intro s₁ pc hw hl
    rw [State.goto, hw, hl]
    exact ⟨⟨0, (append_nil _).symm⟩, by omega⟩
  cases dispatched hs with
  | moves hpc | sweeps _ hpc | publishes _ _ _ hpc => exact hsame rfl (Dispatcher.of_plain hpc).1
  | spawns _ _ hle =>
    refine ⟨⟨_, rfl⟩, ?_⟩
    simpa [State.spawn, State.goto, Nat.add_assoc] using hle
  | closes | cancels | joins | collects => exact hsame rfl rfl

/-! ## Conservation -/

theorem countP_set_toNat {α : Type} {p : α → Bool} {l : List α} {j : ℕ} {a b : α}
    (h : l[j]? = some a) : (l.set j b).countP p + (p a).toNat = l.countP p + (p b).toNat := by
  obtain ⟨hlt, rfl⟩ := List.getElem?_eq_some_iff.1 h
  have hpos : p l[j] = true → 0 < l.countP p := fun hp => countP_pos_iff.2 ⟨_, getElem_mem hlt, hp⟩
  rw [countP_set hlt]
  cases hp : p l[j] with
  | false => cases p b <;> simp
  | true =>
    have := hpos hp
    cases p b <;> simp <;> omega

structure Conserved (s : State) : Prop where
  ledger : s.published = s.claimed + s.dropped + s.gate.budget.total
  parked : s.gate.parked = s.workers.countP Worker.isParked
  nodup : s.gate.budget.tasks.Nodup
  queued : ∀ j ∈ s.gate.budget.tasks, ∃ w ∈ s.workers[j]?, w.isQueued = true
  /-- The executor returns when its workers are done and the permits they gave back are swept. -/
  joined : s.dispatcher = .collecting ∨ s.dispatcher = .returned → ∀ w ∈ s.workers, w = .done
  swept : s.dispatcher = .returned → s.gate.budget.permits = 0

section

variable (h : Conserved s)
include h

theorem Conserved.work {j n : ℕ} {w w' : Worker} {g : Gate}
    (hw : s.workers[j]? = some w) (hstep : w.Step s.gate j w' g n) (hdone : w ≠ .done) :
    Conserved { s with gate := g, workers := s.workers.set j w', claimed := s.claimed + n } := by
  obtain ⟨hlt, -⟩ := List.getElem?_eq_some_iff.1 hw
  have hnot : ¬(s.dispatcher = .collecting ∨ s.dispatcher = .returned) := fun hd =>
    hdone (h.joined hd w (mem_of_getElem? hw))
  have hcount := countP_set_toNat (p := Worker.isParked) (b := w') hw
  have hpos : w.isParked = true → 0 < s.gate.parked := by
    intro hp
    rw [h.parked]
    exact countP_pos_iff.2 ⟨w, mem_of_getElem? hw, hp⟩
  have htotal := hstep.total
  have hparked := hstep.parked hpos
  obtain ⟨hnodup, htasks, hj⟩ := hstep.tasks h.nodup fun hj => by
    obtain ⟨w₁, hw₁, hq⟩ := h.queued j hj
    cases hw.symm.trans hw₁
    exact hq
  refine
    { ledger := ?_, parked := ?_, nodup := hnodup, queued := ?_
      joined := fun hd => absurd hd hnot, swept := fun hd => absurd (.inr hd) hnot }
  · have := h.ledger
    show s.published = s.claimed + n + s.dropped + g.budget.total
    omega
  · show g.parked = (s.workers.set j w').countP Worker.isParked
    have := h.parked
    omega
  · intro i hi
    show ∃ w ∈ (s.workers.set j w')[i]?, _
    by_cases hij : j = i
    · subst hij
      exact ⟨w', getElem?_set_self hlt, hj hi⟩
    · rw [getElem?_set_ne hij]
      exact h.queued i ((htasks i hi).resolve_left (Ne.symm hij))

theorem Conserved.takeUnclaimed : Conserved s.takeUnclaimed := { h with
  ledger := by
    have := h.ledger
    have := s.gate.budget.total_forgetPermits
    show s.published = s.claimed + (s.dropped + s.gate.budget.forgetPermits.1) +
      s.gate.budget.forgetPermits.2.total
    omega
  swept _ := rfl }

theorem Conserved.goto {pc : Dispatcher} (hc : pc ≠ .collecting)
    (hr : pc ≠ .returned) : Conserved (s.goto pc) := { h with
  joined := by
    rintro (hd | hd)
    · cases hc hd
    · cases hr hd
  swept hd := absurd hd hr }

theorem Conserved.spawn (n : ℕ)
    (hd : ¬(s.dispatcher = .collecting ∨ s.dispatcher = .returned)) : Conserved (s.spawn n) := { h with
  parked := by
    show s.gate.parked = (s.workers ++ List.replicate n Worker.spawned).countP Worker.isParked
    rw [countP_append, countP_replicate, h.parked]
    rfl
  queued j hj := by
    obtain ⟨w, hw, hq⟩ := h.queued j hj
    obtain ⟨hlt, -⟩ := List.getElem?_eq_some_iff.1 hw
    exact ⟨w, (getElem?_append_left hlt).trans hw, hq⟩
  joined hd' := absurd hd' hd
  swept hd' := absurd (.inr hd') hd }

theorem Conserved.publish (due now : ℕ)
    (hd : s.dispatcher ≠ .returned) : Conserved (s.publish cfg due now) := { h with
  ledger := by
    have := h.ledger
    have := s.gate.budget.total_addPermits due
    show s.published + due = s.claimed + s.dropped + (s.gate.budget.addPermits due).total
    omega
  nodup := (s.gate.budget.perm_tasks_addPermits due).nodup_iff.2 h.nodup
  queued j hj := h.queued j ((s.gate.budget.perm_tasks_addPermits due).mem_iff.1 hj)
  swept hd' := absurd hd' hd }

theorem Conserved.close :
    Conserved { s with gate := { s.gate with budget := s.gate.budget.close } } := { h with
  nodup := h.nodup.sublist s.gate.budget.tasks_close
  queued j hj := h.queued j (s.gate.budget.tasks_close.subset hj) }

theorem Conserved.dispatch {env : Env} (hs : s.dispatch cfg env = some s') : Conserved s' := by
  have hplain : ∀ {s₁ pc}, Conserved s₁ → pc.plain →
      Conserved (s₁.goto pc) :=
    fun h hpc => h.goto (Dispatcher.of_plain hpc).2.1 (Dispatcher.of_plain hpc).2.2
  cases dispatched hs with
  | moves hpc => exact hplain h hpc
  | spawns hd hpc => exact (h.spawn _ hd).goto hpc.1 hpc.2
  | sweeps expiry hpc =>
    have hexpiry : Conserved { s with expiry := expiry } := { h with }
    exact hplain hexpiry.takeUnclaimed hpc
  | publishes due now hd hpc => exact hplain (h.publish due now hd) hpc
  | closes => exact h.close.goto nofun nofun
  | cancels =>
    have hclosed : Conserved { s with gate := { s.gate with closed := true } } := { h with }
    exact hclosed.goto nofun nofun
  | joins hall => exact { h with joined := fun _ => hall, swept := nofun }
  | collects hd =>
    have hjoined := h.joined (.inl hd)
    exact { h.takeUnclaimed with joined := fun _ => hjoined, swept := fun _ => rfl }

end

theorem conserved_of_reachable (h : (machine cfg).Reachable s) : Conserved s := by
  refine h.invariant ?_ ?_
  · rintro _ rfl
    exact
      { ledger := rfl, parked := rfl, nodup := nodup_nil, queued := nofun
        joined := fun _ => nofun, swept := nofun }
  · intro s₁ act s₂ _ h₁ hnext
    cases act with
    | dispatch env => exact h₁.dispatch hnext
    | work j env =>
      obtain ⟨w, hw, hnext⟩ := bind_eq_some_iff.1 hnext
      obtain ⟨⟨w', g, n⟩, hstep, rfl⟩ := map_eq_some_iff.1 hnext
      refine h₁.work hw (Worker.step_cases hstep) ?_
      rintro rfl
      cases hstep

/-! ## After closure -/

theorem closed_dispatch {env : Env} (hs : s.dispatch cfg env = some s') :
    (s.gate.budget.closed = true → s'.gate.budget.closed = true) ∧ s'.claimed = s.claimed := by
  cases dispatched hs with
  | closes => exact ⟨fun _ => rfl, rfl⟩
  | _ => exact ⟨fun hc => hc, rfl⟩

theorem closed_next (hc : s.gate.budget.closed = true) (hnext : next cfg s act = some s') :
    s'.gate.budget.closed = true ∧ s'.claimed = s.claimed := by
  cases act with
  | dispatch env =>
    obtain ⟨hclosed, hclaimed⟩ := closed_dispatch hnext
    exact ⟨hclosed hc, hclaimed⟩
  | work j env =>
    obtain ⟨w, hw, hnext⟩ := bind_eq_some_iff.1 hnext
    obtain ⟨⟨w', g, n⟩, hstep, rfl⟩ := map_eq_some_iff.1 hnext
    obtain ⟨hclosed, rfl⟩ := (Worker.step_cases hstep).closed hc
    exact ⟨hclosed, rfl⟩

theorem closed_run {acts : List Action} (hc : s.gate.budget.closed = true)
    (hrun : (machine cfg).run s acts = some s') : s'.claimed = s.claimed := by
  induction acts generalizing s with
  | nil =>
    cases hrun
    rfl
  | cons act acts ih =>
    obtain ⟨s₁, hnext, hrun⟩ := bind_eq_some_iff.1 hrun
    obtain ⟨hc₁, hclaimed⟩ := closed_next hc hnext
    exact (ih hc₁ hrun).trans hclaimed

/-- In every state of an arrival-rate executor: when it has returned, every published arrival has
been claimed or recorded as dropped; once its gate is closed nothing is claimed any more, however it
goes on; and the parked workers are counted exactly, so that the count of a worker that unparks is
never taken from zero. -/
theorem arrivals_conserved (cfg : Config) {s : State} (h : (machine cfg).Reachable s) :
    (s.dispatcher = .returned → s.published = s.claimed + s.dropped) ∧
      (s.gate.budget.closed = true → ∀ (acts : List Action) (s' : State),
        (machine cfg).run s acts = some s' → s'.claimed = s.claimed) ∧
      s.gate.parked = s.workers.countP Worker.isParked ∧
      ∀ (j : ℕ) (claimed : Bool), s.workers[j]? = some (.unparking claimed) →
        0 < s.gate.parked := by
  have hc := conserved_of_reachable h
  refine ⟨fun hd => ?_, fun hclosed acts s' hrun => closed_run hclosed hrun, hc.parked, ?_⟩
  · have hassigned : s.gate.budget.assigned = [] := by
      rw [eq_nil_iff_forall_not_mem]
      intro j hj
      obtain ⟨w, hw, hq⟩ := hc.queued j (mem_append_right _ hj)
      rw [hc.joined (.inr hd) w (mem_of_getElem? hw)] at hq
      cases hq
    have hledger := hc.ledger
    rw [Semaphore.total, hc.swept hd, hassigned] at hledger
    exact hledger
  · intro j claimed hw
    rw [hc.parked]
    exact countP_pos_iff.2 ⟨_, mem_of_getElem? hw, rfl⟩

/-- Three arrivals for two parked workers: one is claimed, one is left over at the stop, and one has
been assigned to a worker that is closed out and gives it back. -/
def stoppedBatch : List Action := List.flatten
  [.replicate 3 (.dispatch {}), .replicate 5 (.work 0 {}), .replicate 5 (.work 1 {}),
    .replicate 5 (.dispatch { due := 3 }), .replicate 2 (.work 0 {}),
    .replicate 4 (.dispatch { softStopped := true }), .replicate 3 (.work 1 {}),
    [.work 0 { keepGoing := false }], .replicate 2 (.dispatch {})]

theorem arrivals_conserved_stopped :
    ∃ s, (machine ⟨2, 2, 5⟩).Reachable s ∧ s.dispatcher = .returned ∧ s.published = 3 ∧
      s.claimed = 1 ∧ s.published = s.claimed + s.dropped := by
  obtain ⟨s, hs, hd, hp, hc⟩ := (machine ⟨2, 2, 5⟩).exists_reachable_of_run rfl stoppedBatch
    (fun s => s.dispatcher = .returned ∧ s.published = 3 ∧ s.claimed = 1) (by decide)
  exact ⟨s, hs, hd, hp, hc, (arrivals_conserved _ hs).1 hd⟩

end Arrival

end Loadr
