import Loadr.Executor.Pool
import Loadr.Lib.Spacing

/-!
# Pacing

When the iterations of a closed-model scenario start.  The rate of its `pacing` block is compiled
into the program and goes no further: no executor asks a `Pacer` for a delay.

The rate is kept if iterations are long enough by themselves (`slow_iterations_paced`), each VU
having its share of it.  Short ones exceed it (`starts_unpaced`).
-/

namespace Loadr

open List

namespace Executor

def Task.isRunning : Task → Bool
  | .running _ => true
  | _ => false

def Slot.isRunning (slot : Slot) : Bool := slot.stage == .running

/-- Which VU tasks are in the middle of an iteration.  Arrival-rate executors have a rate of their own
and are left out. -/
def running : Executor → List Bool
  | .closed p => p.tasks.map Task.isRunning
  | .pool p => p.slots.map Slot.isRunning
  | .arrival _ _ => []

/-! ## Steps -/

section

variable {x x' : Executor} {act : Action} {takes : Bool}

theorem Task.step_running {env : Env} {budget budget' : Budget} {task task' : Task}
    (h : task.step env budget = some (task', budget', takes)) (hrun : task.isRunning = true) :
    task'.isRunning = false := by
  cases task with
  | running done =>
    cases h
    split <;> rfl
  | _ => cases hrun

theorem Slot.step_running {env : Env} {allowed i : ℕ} {slot slot' : Slot}
    (h : slot.step env allowed i = some (slot', takes)) (hrun : slot.isRunning = true) :
    slot'.isRunning = false := by
  have hstage : slot.stage = .running := by simpa [isRunning] using hrun
  simp only [step, hstage] at h
  split_ifs at h <;> cases h <;> rfl

theorem running_next (h : x.next act = some (x', takes)) :
    (∃ j env b b', act = .task j env ∧ x.running[j]? = some b ∧ x'.running = x.running.set j b' ∧
      (b = true → b' = false)) ∨
    (∀ j env, act ≠ .task j env) ∧ (x'.running = x.running ++ [false] ∨ x'.running = x.running) := by
  cases step_of_next h with
  | spawnTask => exact .inr ⟨nofun, .inl (by simp [running, Task.isRunning])⟩
  | @task p j env task task' budget _ hj hstep =>
    exact .inl ⟨j, env, _, task'.isRunning, rfl, by simp [running, hj],
      by simp [running, map_set], Task.step_running hstep⟩
  | spawnSlot => exact .inr ⟨nofun, .inl (by simp [running, Slot.isRunning])⟩
  | @slot p j env slot slot' _ hj hstep =>
    exact .inl ⟨j, env, _, slot'.isRunning, rfl, by simp [running, hj],
      by simp [running, map_set], Slot.step_running hstep⟩
  | allow | arrival => exact .inr ⟨nofun, .inr rfl⟩

theorem length_running_le_bound (x : Executor) : x.running.length ≤ x.bound := by
  cases x with
  | closed p | pool p => simp [running, bound]
  | arrival cfg s => simp [running]

end

end Executor

/-! ## Scenarios -/

/-- A scenario with its pacing, in iterations per second. -/
structure PacedScenario where
  spec : ExecutorSpec
  pacing : ℚ
  positive : 0 < pacing

/-- The span in nanoseconds after which a VU may start again if each has its share of the rate. -/
def PacedScenario.span (scenario : PacedScenario) : ℚ :=
  vuCapacity scenario.spec * 10 ^ 9 / scenario.pacing

structure ScenarioRun where
  executor : Executor
  clock : ℕ := 0
  starts : List Start := []

namespace ScenarioRun

inductive Action
  | elapse (duration : ℕ)
  | act (a : Executor.Action)

def started (x : Executor) (clock : ℕ) : Executor.Action → List Start
  | .task j _ => if x.running[j]? = some true then [⟨j, clock⟩] else []
  | _ => []

def next (s : ScenarioRun) : Action → Option ScenarioRun
  | .elapse duration => some { s with clock := s.clock + duration }
  | .act a => (s.executor.next a).map fun (executor, _) =>
      { s with executor, starts := s.starts ++ started executor s.clock a }

/-- The runs of a scenario; its pacing does not show in them. -/
def machine (tick : ℕ) (scenario : PacedScenario) : Machine ScenarioRun Action where
  init s := s = { executor := .ofSpec tick scenario.spec }
  next := next

/-- The iterations started within the first `t` nanoseconds are as many as the pacing and the number
of VUs allow. -/
def Paced (scenario : PacedScenario) (s : ScenarioRun) : Prop :=
  ∀ t : ℕ, (s.starts.countP (·.time ≤ t) : ℚ) ≤
    scenario.pacing * (t / 10 ^ 9) + vuCapacity scenario.spec

/-- An iteration does not end before its VU may start again. -/
def Slow (scenario : PacedScenario) (s : ScenarioRun) : Action → Prop
  | .act (.task j _) => s.executor.running[j]? = some true →
      ∀ x ∈ s.starts, x.worker = j → x.time + scenario.span ≤ s.clock
  | _ => True

instance (scenario : PacedScenario) (s : ScenarioRun) :
    (a : Action) → Decidable (Slow scenario s a)
  | .act (.task _ _) => inferInstanceAs (Decidable (_ → ∀ _ ∈ _, _))
  | .elapse _ | .act .spawn | .act (.allow _) | .act (.arrival _) =>
    inferInstanceAs (Decidable True)

/-- The starts of each VU are spaced, and a VU that is not in an iteration may start. -/
structure Sound (n : ℕ) (d : ℚ) (s : ScenarioRun) : Prop where
  bound : s.executor.bound ≤ n
  workers : ∀ x ∈ s.starts, x.worker < n
  spaced : ∀ j, Spaced d (startsOf j s.starts)
  idle : ∀ j, s.executor.running[j]? ≠ some true →
    ∀ x ∈ s.starts, x.worker = j → (x.time : ℚ) + d ≤ s.clock

section

variable {n : ℕ} {d : ℚ} {s s' : ScenarioRun}

theorem startsOf_append (j : ℕ) (starts : List Start) (x : Start) :
    startsOf j (starts ++ [x]) =
      startsOf j starts ++ if x.worker = j then [(x.time : ℚ)] else [] := by
  unfold startsOf
  rw [filter_append, map_append]
  by_cases h : x.worker = j <;> simp [h]

theorem mem_startsOf {j : ℕ} {starts : List Start} {t : ℚ} (h : t ∈ startsOf j starts) :
    ∃ x ∈ starts, x.worker = j ∧ t = x.time := by
  obtain ⟨x, hx, rfl⟩ := mem_map.1 h
  obtain ⟨hx, hj⟩ := mem_filter.1 hx
  exact ⟨x, hx, by simpa using hj, rfl⟩

theorem Sound.elapse (h : s.Sound n d) (duration : ℕ) :
    Sound n d { s with clock := s.clock + duration } where
  bound := h.bound
  workers := h.workers
  spaced := h.spaced
  idle j hj x hx hw := by
    have := h.idle j hj x hx hw
    push_cast
    linarith [(Nat.cast_nonneg duration : (0 : ℚ) ≤ duration)]

theorem Sound.keep {executor : Executor} (h : s.Sound n d)
    (hbound : executor.bound ≤ s.executor.bound)
    (hidle : ∀ j, executor.running[j]? ≠ some true → s.executor.running[j]? = some true →
      ∀ x ∈ s.starts, x.worker = j → (x.time : ℚ) + d ≤ s.clock) :
    Sound n d { s with executor } where
  bound := hbound.trans h.bound
  workers := h.workers
  spaced := h.spaced
  idle j hj := by
    by_cases hrun : s.executor.running[j]? = some true
    · exact hidle j hj hrun
    · exact h.idle j hrun

theorem Sound.start {executor : Executor} {j : ℕ} (h : s.Sound n d)
    (hbound : executor.bound ≤ s.executor.bound)
    (hj : s.executor.running[j]? = some false)
    (hset : executor.running = s.executor.running.set j true) :
    Sound n d { s with executor, starts := s.starts ++ [⟨j, s.clock⟩] } where
  bound := hbound.trans h.bound
  workers x hx := by
    rcases mem_append.1 hx with hx | hx
    · exact h.workers x hx
    · rw [mem_singleton.1 hx]
      obtain ⟨hlt, -⟩ := List.getElem?_eq_some_iff.1 hj
      exact hlt.trans_le ((s.executor.length_running_le_bound).trans h.bound)
  spaced i := by
    rw [startsOf_append]
    split_ifs with hi
    · refine (h.spaced i).append_singleton fun t ht => ?_
      obtain ⟨x, hx, hw, rfl⟩ := mem_startsOf ht
      exact h.idle j (by simp [hj]) x hx (hw.trans hi.symm)
    · rw [append_nil]
      exact h.spaced i
  idle i hi x hx hw := by
    have hne : i ≠ j := by
      rintro rfl
      obtain ⟨hlt, -⟩ := List.getElem?_eq_some_iff.1 hj
      exact hi (by simp [hset, hlt])
    rw [hset, getElem?_set_ne (Ne.symm hne)] at hi
    rcases mem_append.1 hx with hx | hx
    · exact h.idle i hi x hx hw
    · rw [mem_singleton.1 hx] at hw
      cases hne hw.symm

theorem Sound.next {scenario : PacedScenario} {a : Action}
    (h : s.Sound n scenario.span) (hslow : Slow scenario s a) (hs : s.next a = some s') :
    s'.Sound n scenario.span := by
  cases a with
  | elapse duration =>
    cases hs
    exact h.elapse duration
  | act a =>
    obtain ⟨⟨executor, takes⟩, hnext, rfl⟩ := Option.map_eq_some_iff.1 hs
    have hbound := Executor.bound_next hnext
    rcases Executor.running_next hnext with ⟨j, env, b, b', rfl, hj, hset, hb⟩ | ⟨hne, hrun⟩
    · have hlt : j < s.executor.running.length := (List.getElem?_eq_some_iff.1 hj).1
      have hj' : executor.running[j]? = some b' := by simp [hset, hlt]
      cases b' with
      | true =>
        have hfalse : b = false := by
          cases b with
          | true => exact absurd (hb rfl) (by simp)
          | false => rfl
        simp only [started, hj', if_pos]
        exact h.start hbound (hfalse ▸ hj) hset
      | false =>
        simp only [started, hj', Option.some.injEq, Bool.false_eq_true, if_false, append_nil]
        refine h.keep hbound fun i hi hrun x hx hw => ?_
        by_cases hij : i = j
        · subst hij
          exact hslow hrun x hx hw
        · rw [hset, getElem?_set_ne (Ne.symm hij)] at hi
          cases hi hrun
    · have hnone : started executor s.clock a = [] := by
        cases a with
        | task j env => cases hne j env rfl
        | _ => rfl
      simp only [hnone, append_nil]
      refine h.keep hbound fun j hj hold => absurd ?_ hj
      rcases hrun with hrun | hrun
      · rw [hrun, List.getElem?_append_left (List.getElem?_eq_some_iff.1 hold).1, hold]
      · rw [hrun, hold]

theorem sound {tick : ℕ} {scenario : PacedScenario}
    (h : ((machine tick scenario).guarded (Slow scenario)).Reachable s) :
    s.Sound (vuCapacity scenario.spec) scenario.span := by
  induction h with
  | init h =>
    subst h
    refine ⟨(Executor.bound_ofSpec tick scenario.spec).le, by simp, fun j => ?_, by simp⟩
    exact List.Pairwise.nil
  | step _ hs ih =>
    obtain ⟨hslow, hs⟩ := Machine.guarded_next.1 hs
    exact ih.next hslow hs

/-- The pacing is kept in every run of a scenario whose iterations all last as long as the share of
a VU in the rate asks for. -/
theorem slow_iterations_paced {tick : ℕ} {scenario : PacedScenario}
    (h : ((machine tick scenario).guarded (Slow scenario)).Reachable s) : s.Paced scenario := by
  have hsound := sound h
  have hpos := scenario.positive
  intro t
  rcases Nat.eq_zero_or_pos (vuCapacity scenario.spec) with h0 | hvus
  · have hnone : s.starts = [] := eq_nil_iff_forall_not_mem.2 fun x hx =>
      absurd (hsound.workers x hx) (by omega)
    rw [hnone, h0]
    simp only [countP_nil, Nat.cast_zero, add_zero]
    positivity
  · have hvus' : (0 : ℚ) < vuCapacity scenario.spec := by exact_mod_cast hvus
    have hspan : 0 < scenario.span := by
      unfold PacedScenario.span
      positivity
    calc (s.starts.countP (·.time ≤ t) : ℚ)
        ≤ vuCapacity scenario.spec * (t / scenario.span + 1) :=
          countP_starts_le hspan hsound.spaced hsound.workers t
      _ = scenario.pacing * (t / 10 ^ 9) + vuCapacity scenario.spec := by
          unfold PacedScenario.span
          field_simp

end

def oneEachSecond : PacedScenario := ⟨.constantVus 1 (60 * 10 ^ 9), 1, by norm_num⟩

def toIteration : List Action := [.act (.task 0 {}), .act (.task 0 {})]

theorem slow_iterations_paced_one : ∃ s : ScenarioRun, s.starts = [⟨0, 0⟩, ⟨0, 10 ^ 9⟩] ∧
    s.Paced oneEachSecond := by
  obtain ⟨s, hs, hstarts⟩ := ((machine 1 oneEachSecond).guarded
    (Slow oneEachSecond)).exists_reachable_of_run rfl
    ([.act .spawn, .act (.task 0 {})] ++ toIteration ++ [.elapse (10 ^ 9), .act (.task 0 {})] ++
      toIteration)
    (fun s => s.starts = [⟨0, 0⟩, ⟨0, 10 ^ 9⟩]) (by decide +kernel)
  exact ⟨s, hstarts, slow_iterations_paced hs⟩

/-- Two iterations start at once, where the pacing is one each second. -/
theorem starts_unpaced : ∃ s : ScenarioRun,
    (machine 1 oneEachSecond).Reachable s ∧ ¬ s.Paced oneEachSecond := by
  obtain ⟨s, hs, hstarts⟩ := (machine 1 oneEachSecond).exists_reachable_of_run rfl
    ([.act .spawn, .act (.task 0 {})] ++ toIteration ++ [.act (.task 0 {})] ++ toIteration)
    (fun s => s.starts = [⟨0, 0⟩, ⟨0, 0⟩]) (by decide +kernel)
  refine ⟨s, hs, fun h => ?_⟩
  have hcount := h 0
  rw [hstarts] at hcount
  exact absurd hcount (by decide +kernel)

end ScenarioRun

end Loadr
