import Loadr.Agent.Process
import Loadr.Controller.Settle

/-!
# A controller and its agents

Agent processes start, crash and start again under the ids they like.  What a process has queued
reaches the controller in any order, any number of times, over any session the process has opened,
and the other way round.  So agents report `started` only for runs whose start has been sent
(`Deployment.wired_of_reachable`).
-/

namespace Loadr

open Controller Controller.Barrier List Option

variable {M : Metering}

structure Deployment (M : Metering) where
  controller : Controller.State M
  processes : List (Agent.Process M.Bytes)
  owner : ℕ → Option ℕ

namespace Deployment

inductive Action (M : Metering)
  | launch (agentId agentName : String) (labels : StringMap) (incarnation : String)
  | agent (i : ℕ) (act : Agent.Act M.Bytes)
  | connect (i : ℕ)
  /-- The process of session `k` reads an item of the downlink. -/
  | downlink (k j : ℕ) (room : Bool)
  /-- The pump of session `k` finds a message of the session's process. -/
  | uplink (k j seq : ℕ) (env : Env M)
  | step (t : TaskId) (env : Env M)
  | submit (sub : Submission M)
  | control (n : ℕ) (call : ControlCall)

def process (d : Deployment M) (k : ℕ) : Option (ℕ × Agent.Process M.Bytes) :=
  (d.owner k).bind fun i => d.processes[i]?.map fun p => (i, p)

def Action.task : Action M → Option TaskId
  | .uplink k .. => some (.session k)
  | .step t _ => some t
  | _ => none

def isReceive : Agent.Act M.Bytes → Bool
  | .receive .. => true
  | _ => false

def setController (d : Deployment M) (s : Controller.State M) : Deployment M :=
  { d with controller := s }

def next (d : Deployment M) : Action M → Option (Deployment M)
  | .launch agentId agentName labels incarnation =>
    -- incarnations are random, so they never repeat
    if d.processes.all fun p => p.incarnation != incarnation then
      some { d with processes := d.processes ++
        [{ agentId := agentId, agentName := agentName, labels := labels
           incarnation := incarnation }] }
    else none
  | .agent i act =>
    if isReceive act then none
    else d.processes[i]?.bind fun p => (p.next act).map fun p' =>
      { d with processes := d.processes.set i p' }
  | .connect i =>
    d.processes[i]?.bind fun p => (Controller.next d.controller (.connect p.register)).map fun s =>
      { d with controller := s, owner := Function.update d.owner s.shared.sessionCounter (some i) }
  | .downlink k j room =>
    (d.process k).bind fun (i, p) =>
      match (d.controller.shared.downlinks k)[j]? with
      | some (.msg m) => (p.next (.receive m room)).map fun p' =>
        { d with processes := d.processes.set i p' }
      | _ => none
  | .uplink k j seq env =>
    (d.process k).bind fun (_, p) => p.sent[j]?.bind fun m =>
      (Controller.next d.controller (.step (.session k)
        { env with inbound := .message { seq := seq, msg := m } })).map d.setController
  | .step t env =>
    (Controller.next d.controller (.step t { env with inbound := .ended })).map d.setController
  | .submit sub => (Controller.next d.controller (.submit sub)).map d.setController
  | .control n call => (Controller.next d.controller (.control n call)).map d.setController

def initial (M : Metering) (liveness : ℕ) : Deployment M where
  controller := Controller.initial M liveness
  processes := []
  owner := fun _ => none

def machine (M : Metering) : Machine (Deployment M) (Action M) where
  init d := ∃ liveness, d = initial M liveness
  next := next

variable {d d' : Deployment M}

/-! ## What a step of a deployment can be -/

/-- A step of the controller that its agents and callers can cause. -/
def Caused (d : Deployment M) : Controller.Action M → Prop
  | .step t env => env.inbound = .ended ∨ ∃ k seq i p m, t = .session k ∧ d.owner k = some i ∧
      d.processes[i]? = some p ∧ m ∈ p.sent ∧ env.inbound = .message { seq := seq, msg := m }
  | .connect _ => False
  | .submit _ | .control .. => True

/-- A process acts of itself, or hears what the controller has queued for it. -/
def Prompted (d : Deployment M) (i : ℕ) (p : Agent.Process M.Bytes) (act : Action M) :
    Agent.Act M.Bytes → Prop
  | .receive m room => ∃ k j, act = .downlink k j room ∧ d.process k = some (i, p) ∧
      (d.controller.shared.downlinks k)[j]? = some (.msg m)
  | a => act = .agent i a

inductive Move (d : Deployment M) (act : Action M) : Deployment M → Prop
  | launch (agentId agentName : String) (labels : StringMap) (incarnation : String) :
    (∀ p ∈ d.processes, p.incarnation ≠ incarnation) →
    Move d act { d with processes := d.processes ++
      [{ agentId := agentId, agentName := agentName, labels := labels
         incarnation := incarnation }] }
  | agent {i : ℕ} {p p' : Agent.Process M.Bytes} {a : Agent.Act M.Bytes} :
    d.processes[i]? = some p → p.next a = some p' → Prompted d i p act a →
    Move d act { d with processes := d.processes.set i p' }
  | connect {i : ℕ} {p : Agent.Process M.Bytes} {s : Controller.State M} :
    d.processes[i]? = some p → Controller.next d.controller (.connect p.register) = some s →
    Move d act
      { d with controller := s, owner := Function.update d.owner s.shared.sessionCounter (some i) }
  | controller {a : Controller.Action M} {s : Controller.State M} : Caused d a →
    (∀ t env, a = .step t env → act.task = some t) →
    (∀ n call, a = .control n call → act = .control n call) →
    Controller.next d.controller a = some s → Move d act (d.setController s)

theorem process_eq_some {k i : ℕ} {p : Agent.Process M.Bytes} (h : d.process k = some (i, p)) :
    d.owner k = some i ∧ d.processes[i]? = some p := by
  obtain ⟨j, hj, hp⟩ := bind_eq_some_iff.1 h
  obtain ⟨q, hq, he⟩ := map_eq_some_iff.1 hp
  cases he
  exact ⟨hj, hq⟩

theorem Prompted.heard {i : ℕ} {p p' : Agent.Process M.Bytes} {act : Action M}
    {a : Agent.Act M.Bytes} (h : Prompted d i p act a) (hp' : p.next a = some p') {m : CtrlMsg}
    (hm : m ∈ p'.heard) :
    m ∈ p.heard ∨ ∃ k, d.owner k = some i ∧ .msg m ∈ d.controller.shared.downlinks k := by
  rw [Agent.Process.heard_next hp'] at hm
  cases a with
  | receive m' room =>
    obtain ⟨k, j, -, hk, hqueued⟩ := h
    rcases mem_cons.1 hm with rfl | hm
    · exact .inr ⟨k, (process_eq_some hk).1, mem_of_getElem? hqueued⟩
    · exact .inl hm
  | prep | run | heartbeat | shutdown => exact .inl hm

theorem move_of_next {act : Action M} (hnext : next d act = some d') : Move d act d' := by
  cases act with
  | launch agentId agentName labels incarnation =>
    simp only [next, ite_none_right_eq_some, some.injEq] at hnext
    obtain ⟨hfresh, rfl⟩ := hnext
    refine .launch agentId agentName labels incarnation fun p hp => ?_
    exact bne_iff_ne.1 (all_eq_true.1 hfresh p hp)
  | agent i act =>
    simp only [next, ite_none_left_eq_some] at hnext
    obtain ⟨hact, hnext⟩ := hnext
    obtain ⟨p, hp, hnext⟩ := bind_eq_some_iff.1 hnext
    obtain ⟨p', hp', rfl⟩ := map_eq_some_iff.1 hnext
    refine .agent hp hp' ?_
    cases act with
    | receive => cases hact rfl
    | prep | run | heartbeat | shutdown => rfl
  | connect i =>
    obtain ⟨p, hp, hnext⟩ := bind_eq_some_iff.1 hnext
    obtain ⟨s, hs, rfl⟩ := map_eq_some_iff.1 hnext
    exact .connect hp hs
  | downlink k j room =>
    obtain ⟨⟨i, p⟩, hp, hnext⟩ := bind_eq_some_iff.1 hnext
    dsimp only at hnext
    split at hnext
    · rename_i m hm
      obtain ⟨p', hp', rfl⟩ := map_eq_some_iff.1 hnext
      exact .agent (process_eq_some hp).2 hp' ⟨k, j, rfl, hp, hm⟩
    · cases hnext
  | uplink k j seq env =>
    obtain ⟨⟨i, p⟩, hp, hnext⟩ := bind_eq_some_iff.1 hnext
    obtain ⟨howner, hp⟩ := process_eq_some hp
    obtain ⟨m, hm, hnext⟩ := bind_eq_some_iff.1 hnext
    obtain ⟨s, hs, rfl⟩ := map_eq_some_iff.1 hnext
    refine .controller ?_ ?_ (by simp) hs
    · exact .inr ⟨k, seq, i, p, m, rfl, howner, hp, mem_of_getElem? hm, rfl⟩
    · rintro t env' he
      cases he
      rfl
  | step t env =>
    obtain ⟨s, hs, rfl⟩ := map_eq_some_iff.1 hnext
    refine .controller ?_ ?_ (by simp) hs
    · exact .inl rfl
    · rintro t' env' he
      cases he
      rfl
  | submit | control =>
    obtain ⟨s, hs, rfl⟩ := map_eq_some_iff.1 hnext
    refine .controller ?_ (by simp) (by simp) hs
    trivial

/-- Where a process comes from that is there after a step. -/
inductive Succeeds (d : Deployment M) (act : Action M) (i : ℕ) : Agent.Process M.Bytes → Prop
  | launched (agentId agentName : String) (labels : StringMap) (incarnation : String) :
    i = d.processes.length → (∀ p ∈ d.processes, p.incarnation ≠ incarnation) →
    Succeeds d act i
      { agentId := agentId, agentName := agentName, labels := labels, incarnation := incarnation }
  | kept {p : Agent.Process M.Bytes} : d.processes[i]? = some p → Succeeds d act i p
  | stepped {p p' : Agent.Process M.Bytes} {a : Agent.Act M.Bytes} : d.processes[i]? = some p →
    p.next a = some p' → Prompted d i p act a → Succeeds d act i p'

theorem succeeds_of_move {act : Action M} {i : ℕ} {q : Agent.Process M.Bytes}
    (hmove : Move d act d') (hq : d'.processes[i]? = some q) : Succeeds d act i q := by
  cases hmove with
  | launch agentId agentName labels incarnation hfresh =>
    by_cases hlt : i < d.processes.length
    · exact .kept ((getElem?_append_left hlt).symm.trans hq)
    · rw [getElem?_append_right (by omega), getElem?_singleton] at hq
      split_ifs at hq
      cases hq
      exact .launched _ _ _ _ (by omega) hfresh
  | @agent j p p' a hp hp' hheard =>
    by_cases hj : j = i
    · subst hj
      rw [getElem?_set_self (List.getElem?_eq_some_iff.1 hp).1] at hq
      cases hq
      exact .stepped hp hp' hheard
    · exact .kept ((getElem?_set_ne hj).symm.trans hq)
  | connect | controller => exact .kept hq

/-! ## What the two sides know of each other -/

structure Wired (d : Deployment M) : Prop where
  reachable :
    ((Controller.machine M).guarded fun s act => lawful s act = true).Reachable d.controller
  lived : ∀ p ∈ d.processes, p.Lived
  /-- What a process has heard of a start, the controller has sent. -/
  told : ∀ p ∈ d.processes, ∀ R t, .start R t ∈ p.heard →
    ∃ k, .sent k (.msg (.start R t)) ∈ d.controller.trace
  queued : ∀ k R t, .msg (.start R t) ∈ d.controller.shared.downlinks k →
    .sent k (.msg (.start R t)) ∈ d.controller.trace

theorem queued_step {s s' : Controller.State M} {act : Controller.Action M} (hstep : Step s act s')
    (hq : ∀ k R t, .msg (.start R t) ∈ s.shared.downlinks k →
      .sent k (.msg (.start R t)) ∈ s.trace) :
    (∀ e ∈ s.trace, e ∈ s'.trace) ∧ ∀ k R t, .msg (.start R t) ∈ s'.shared.downlinks k →
      .sent k (.msg (.start R t)) ∈ s'.trace := by
  cases hstep with
  | exec hprog hexec =>
    refine ⟨fun e he => mem_append_right _ he, fun k R t hi => ?_⟩
    rcases exec_start_queued hexec hi with hi | he
    · exact mem_append_right _ (hq k R t hi)
    · exact mem_append_left _ he
  | connect reg =>
    refine ⟨fun e he => he, fun k R t hi => ?_⟩
    rcases mem_enqueue.1 hi with hi | ⟨-, he⟩
    · exact hq k R t hi
    · cases he
  | submit | control => exact ⟨fun e he => he, hq⟩

theorem Wired.controller (h : Wired d) {act : Controller.Action M} {s : Controller.State M}
    (hact : lawful d.controller act = true) (hnext : Controller.next d.controller act = some s)
    (owner : ℕ → Option ℕ) : Wired { d with controller := s, owner := owner } := by
  obtain ⟨htrace, hqueued⟩ := queued_step (step_of_next hnext) h.queued
  refine { h with reachable := ?_, told := ?_, queued := hqueued }
  · exact h.reachable.step (Machine.guarded_next.2 ⟨hact, hnext⟩)
  · intro p hp R t ht
    obtain ⟨k, hk⟩ := h.told p hp R t ht
    exact ⟨k, htrace _ hk⟩

/-- Agents report `started` only for runs whose start has been sent. -/
theorem Wired.lawful (h : Wired d) {act : Controller.Action M} (hact : Caused d act) :
    lawful d.controller act = true := by
  cases act with
  | connect | submit | control => rfl
  | step t env =>
  rcases hact with hin | ⟨k, seq, i, p, m, -, -, hp, hm, hin⟩
  · simp only [Barrier.lawful, hin]
  simp only [Barrier.lawful, hin]
  have hp := mem_of_getElem? hp
  cases m with
  | event ev =>
    show (ev.kind != .started || startSent d.controller ev.runId) = true
    by_cases hk : ev.kind = .started
    · obtain ⟨t, ht⟩ := (h.lived p hp).startHeard.said ev hm hk
      obtain ⟨k, hk⟩ := h.told p hp ev.runId t ht
      rw [startSent_iff.2 ⟨k, t, hk⟩, Bool.or_true]
    · rw [bne_iff_ne.2 hk, Bool.true_or]
  | register | heartbeat | metrics | controlAck | assignmentReady => rfl

theorem Wired.move {act : Action M} (h : Wired d) (hmove : Move d act d') : Wired d' := by
  have hprocess : ∀ q ∈ d'.processes, q.Lived ∧ ∀ R t, .start R t ∈ q.heard →
      ∃ k, .sent k (.msg (.start R t)) ∈ d.controller.trace := by
    intro q hq
    obtain ⟨i, hi⟩ := mem_iff_getElem?.1 hq
    cases succeeds_of_move hmove hi with
    | launched => exact ⟨.launch .., fun _ _ => nofun⟩
    | kept hp => exact ⟨h.lived q (mem_of_getElem? hp), h.told q (mem_of_getElem? hp)⟩
    | stepped hp hp' hheard =>
      have hmem := mem_of_getElem? hp
      refine ⟨(h.lived _ hmem).next hp', fun R t ht => ?_⟩
      rcases hheard.heard hp' ht with ht | ⟨k, -, hm⟩
      · exact h.told _ hmem R t ht
      · exact ⟨k, h.queued k R t hm⟩
  cases hmove with
  | launch | agent =>
    exact { h with lived := fun p hp => (hprocess p hp).1, told := fun p hp => (hprocess p hp).2 }
  | connect _ hs => exact h.controller rfl hs _
  | controller hact _ _ hs => exact h.controller (h.lawful hact) hs _

theorem wired_of_reachable (h : (machine M).Reachable d) : Wired d := by
  refine h.invariant ?_ ?_
  · rintro d₀ ⟨liveness, rfl⟩
    exact
      { reachable := .init ⟨liveness, rfl⟩, lived := fun _ => nofun, told := fun _ => nofun
        queued := fun _ _ _ => nofun }
  · intro d₁ act d₂ _ h₁ hnext
    exact h₁.move (move_of_next hnext)

/-! ## The start barrier -/

def idle (t : TaskId) : Action M := .step t { timeout := true }

theorem run_idle {s' : Controller.State M} (ts : List TaskId)
    (h : (Controller.machine M).run d.controller (ts.map Barrier.idle) = some s') :
    (machine M).run d (ts.map idle) = some (d.setController s') := by
  induction ts generalizing d with
  | nil =>
    cases h
    rfl
  | cons t ts ih =>
    obtain ⟨s, hs, h⟩ := bind_eq_some_iff.1 h
    have hstep : (machine M).next d (idle t) = some (d.setController s) := by
      show (Controller.next d.controller (Barrier.idle t)).map d.setController = _
      rw [show Controller.next d.controller (Barrier.idle t) = some s from hs]
      rfl
    show ((machine M).next d (idle t)).bind _ = _
    rw [hstep]
    exact ih (d := d.setController s) h

/-- The start barrier is safe, whatever the agents and the network do.  If the preparation has
failed or timed out, the controller's own steps moreover lead to the end of the run. -/
theorem start_barrier_safe (M : Metering) {d : Deployment M} (h : (machine M).Reachable d)
    (R : String) : StartSafe d.controller R ∧
      (.prepFailure R ∈ d.controller.trace ∨ .timedOut R ∈ d.controller.trace →
        ∃ (ts : List TaskId) (d' : Deployment M), (machine M).run d (ts.map idle) = some d' ∧
          Settled d'.controller.shared R) := by
  have hwired := wired_of_reachable h
  have hstartable := startable_of_reachable hwired.reachable
  refine ⟨hstartable.startSafe R, fun hdecided => ?_⟩
  have hdoomed : Doomed d.controller R :=
    { startable := hstartable
      reachable := hwired.reachable.of_guarded
      known := hstartable.known_of_decided hdecided
      decided := hdecided }
  obtain ⟨ts, s', hrun, hs'⟩ := settles_of_doomed hdoomed
  exact ⟨ts, d.setController s', run_idle ts hrun, hs'⟩

/-- One agent is launched, prepares its share of a run and starts it when told to. -/
def oneAgent : List (Action listing) := List.flatten
  [[.launch "a" "agent" ∅ "i", .connect 0, .step (.session 1) {}, .submit submission],
    .replicate 4 (.step (.submit "r") {}),
    [.downlink 1 1 true], .replicate 3 (.agent 0 (.prep 0 (.ok []) true)),
    [.uplink 1 0 1 {}], .replicate 5 (.step (.session 1) {}),
    .replicate 4 (.step (.barrier "r") {}),
    [.downlink 1 3 true], .replicate 3 (.agent 0 (.run 0 .stopping true)),
    [.uplink 1 0 2 {}], .replicate 3 (.step (.session 1) {})]

theorem start_barrier_safe_one_agent :
    ∃ d, (machine listing).Reachable d ∧
      (.sent 1 (.msg (.start "r" 5)) ∈ d.controller.trace ∧
        (d.controller.shared.runs["r"]?.map (·.state)) = some .running) ∧
      StartSafe d.controller "r" := by
  obtain ⟨d, hd, hP⟩ := (machine listing).exists_reachable_of_run ⟨3, rfl⟩ oneAgent
    (fun d => .sent 1 (.msg (.start "r" 5)) ∈ d.controller.trace ∧
      (d.controller.shared.runs["r"]?.map (·.state)) = some .running) (by decide +kernel)
  exact ⟨d, hd, hP, (start_barrier_safe listing hd "r").1⟩

end Deployment

end Loadr
