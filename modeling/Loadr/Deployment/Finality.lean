import Loadr.Agent.Reports
import Loadr.Controller.Finality
import Loadr.Deployment

/-!
# Settled runs of a deployment

Agent processes report deltas and `started` only for runs they were told to start.  So everything
`Controller.Finality` needs of agents holds in a deployment, and its runs move forward and stay
settled (`Deployment.settled_runs_stay_settled`).
-/

namespace Loadr

open Controller Controller.Barrier

variable {M : Metering}

namespace Deployment

variable {d d' : Deployment M} {R : String} {run : ControllerRun M}

theorem truthful_of_caused (h : Wired d) {act : Controller.Action M} (hact : Caused d act) :
    truthful d.controller act = true := by
  refine Bool.and_eq_true_iff.2 ⟨h.lawful hact, ?_⟩
  cases act with
  | connect | submit | control => rfl
  | step t env =>
    rcases hact with hin | ⟨k, seq, i, p, m, -, -, hp, hm, hin⟩
    · simp only [hin]
    · simp only [hin]
      cases m with
      | metrics R json =>
        have hp := List.mem_of_getElem? hp
        obtain ⟨t, ht⟩ := (h.lived p hp).metricsHeard R json hm
        obtain ⟨k, hk⟩ := h.told p hp R t ht
        exact startSent_iff.2 ⟨k, t, hk⟩
      | register | heartbeat | event | controlAck | assignmentReady => rfl

theorem truthful_of_reachable (h : (machine M).Reachable d) :
    ((Controller.machine M).guarded fun s act => truthful s act = true).Reachable d.controller := by
  induction h with
  | init h =>
    obtain ⟨liveness, rfl⟩ := h
    exact .init ⟨liveness, rfl⟩
  | @step d₁ _ _ hreach hnext ih =>
    cases move_of_next hnext with
    | launch | agent => exact ih
    | @connect i p s _ hs =>
      have hguard : truthful d₁.controller (.connect p.register) = true := rfl
      exact ih.step (Machine.guarded_next.2 ⟨hguard, hs⟩)
    | controller hact _ _ hs =>
      have hguard := truthful_of_caused (wired_of_reachable hreach) hact
      exact ih.step (Machine.guarded_next.2 ⟨hguard, hs⟩)

theorem onward_of_move {act : Action M} (h : (machine M).Reachable d) (hmove : Move d act d')
    (hr : d.controller.shared.runs[R]? = some run) :
    ∃ run', d'.controller.shared.runs[R]? = some run' ∧ Onward run run' := by
  have hreach := (wired_of_reachable h).reachable
  have hs := startable_of_reachable hreach
  have hf := frozen_of_reachable hreach.of_guarded
  cases hmove with
  | launch | agent => exact ⟨run, hr, .refl run⟩
  | connect _ hnext => exact Onward.step hs hf (step_of_next hnext) hr
  | controller _ _ _ hnext => exact Onward.step hs hf (step_of_next hnext) hr

theorem onward_of_run (h : (machine M).Reachable d) {acts : List (Action M)}
    (hrun : (machine M).run d acts = some d') (hr : d.controller.shared.runs[R]? = some run) :
    ∃ run', d'.controller.shared.runs[R]? = some run' ∧ Onward run run' := by
  induction acts generalizing d run with
  | nil =>
    cases hrun
    exact ⟨run, hr, .refl run⟩
  | cons act acts ih =>
    obtain ⟨d₁, hnext, hrun⟩ := Option.bind_eq_some_iff.1 hrun
    obtain ⟨run₁, hr₁, hon₁⟩ := onward_of_move h (move_of_next hnext) hr
    obtain ⟨run', hr', hon⟩ := ih (h.step hnext) hrun hr₁
    exact ⟨run', hr', hon₁.trans hon⟩

/-- In every state of a deployment a run is settled exactly when its summary is frozen, which
happens once, and whenever the state lock is free its contributing agents are the authors of the
deltas behind the summary.  However the deployment goes on, the run moves forward, and once settled
neither its state nor its summary changes. -/
theorem settled_runs_stay_settled (M : Metering) {d d' : Deployment M}
    (h : (machine M).Reachable d) (acts : List (Action M))
    (hrun : (machine M).run d acts = some d') (R : String) (run : ControllerRun M)
    (hr : d.controller.shared.runs[R]? = some run) :
    Finality d.controller R run ∧
      ∃ run', d'.controller.shared.runs[R]? = some run' ∧ Onward run run' :=
  ⟨finality_of_reachable (truthful_of_reachable h) hr, onward_of_run h hrun hr⟩

def oneDelta : List (Action listing) := List.flatten
  [oneAgent, [.step (.session 1) {}, .agent 0 (.run 0 (.flush (7 : ℕ)) true), .uplink 1 0 3 {}],
    .replicate 10 (.step (.session 1) {})]

def oneEnd : List (Action listing) := List.flatten
  [[.agent 0 (.run 0 (.returned (.ok none)) true), .agent 0 (.run 0 .stopping true),
    .uplink 1 0 4 {}], .replicate 8 (.step (.session 1) {})]

theorem settled_runs_stay_settled_one_agent :
    ∃ d d' : Deployment listing, ∃ run run', (machine listing).Reachable d ∧
      (machine listing).run d oneEnd = some d' ∧ d.controller.shared.runs["r"]? = some run ∧
      (run.state = .running ∧ run.stateHeld = false ∧ "a" ∈ run.contributing) ∧
      Finality d.controller "r" run ∧ d'.controller.shared.runs["r"]? = some run' ∧
      Onward run run' ∧ run'.state = .finished ∧
      run'.mergedSummary.map MergedSummary.agg =
        some (listing.mergeDelta (listing.new 0) (7 : ℕ)) := by
  obtain ⟨d, hd, ⟨run, hr, hrunning⟩, hend⟩ := (machine listing).exists_reachable_of_run ⟨3, rfl⟩
    oneDelta (fun d => (∃ run ∈ d.controller.shared.runs["r"]?,
        run.state = .running ∧ run.stateHeld = false ∧ "a" ∈ run.contributing) ∧
      ∃ d' ∈ (machine listing).run d oneEnd, ∃ run' ∈ d'.controller.shared.runs["r"]?,
        run'.state = .finished ∧
        run'.mergedSummary.map MergedSummary.agg =
          some (listing.mergeDelta (listing.new 0) (7 : ℕ)))
    (by decide +kernel)
  obtain ⟨d', hd', run₁, hr₁, hfinished⟩ := hend
  obtain ⟨hfinal, run', hr', hon⟩ := settled_runs_stay_settled listing hd oneEnd hd' "r" run hr
  obtain rfl := Option.some.inj (hr'.symm.trans hr₁)
  exact ⟨d, d', run, run', hd, hd', hr, hrunning, hfinal, hr', hon, hfinished⟩

end Deployment

end Loadr
