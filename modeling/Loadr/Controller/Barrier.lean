import Loadr.Controller.Life

/-!
# The start barrier

What the controller guarantees about the start of a run, for agents that report `started` only for a
run whose start message has been sent.  `Startable` is the invariant: the life of every run, the
operations ahead (`Claims`), the record of each run (`RunOk`) and the log (`Past`).
-/

namespace Loadr

open List Option

namespace Controller

namespace Barrier

variable {M : Metering} {env : Env M} {inner : Inner M} {op : Op M} {o : Outcome M}
  {s s' : State M} {R : String} {trace : List Event} {run : ControllerRun M}

def startSent (s : State M) (runId : String) : Bool :=
  s.trace.any fun
    | .sent _ (.msg (.start R _)) => R == runId
    | _ => false

theorem startSent_iff : startSent s R = true ↔ ∃ k t, .sent k (.msg (.start R t)) ∈ s.trace := by
  unfold startSent
  rw [List.any_eq_true]
  constructor
  · rintro ⟨e, he, hR⟩
    split at hR
    · obtain rfl := beq_iff_eq.1 hR
      exact ⟨_, _, he⟩
    · cases hR
  · rintro ⟨k, t, hm⟩
    exact ⟨_, hm, beq_self_eq_true R⟩

/-- Steps in which no agent reports a start it was not told of. -/
def lawful (s : State M) : Action M → Bool
  | .step _ env =>
    match env.inbound with
    | .message { msg := .event ev, .. } => ev.kind != .started || startSent s ev.runId
    | _ => true
  | _ => true

/-! ## What is on record about a run -/

/-- A report of `started` is about a run whose start is committed. -/
def Lawful (inner : Inner M) (m : AgentMsg M.Bytes) : Prop :=
  ∀ ev, m = .event ev → ev.kind = .started → ∃ t, CommittedAt inner ev.runId t

/-- What must hold for an operation ahead to be harmless. -/
def Claims (inner : Inner M) : Op M → Prop
  | .eventStarted R => ∃ t, CommittedAt inner R t
  | .admitMessage _ _ msg => Lawful inner msg.msg
  | .applyAgentMessage _ m => Lawful inner m
  | .controlTargets call | .controlInsert call _ | .controlWait call _ | .controlPark call _ |
    .controlTimeout call _ | .controlFinish call _ => NotPending inner call.runId
  | .setStopping R => NotPending inner R
  | .recordPrepFailure R _ _ (.control call) => R = call.runId
  | .broadcastStart R t | .resumeSender _ R t | .send _ (.msg (.start R t)) => CommittedAt inner R t
  | .markReady a R i => ∃ run, inner.runs[R]? = some run ∧ run.assigned.findIdx? (· == a) = some i
  | _ => True

structure RunOk (trace : List Event) (R : String) (run : ControllerRun M) : Prop where
  /-- Without a start time the run has not moved past `Pending` except to its end. -/
  waiting : run.startUnixMs = none → run.state = .pending ∨ run.state.isTerminal = true
  started : ∀ t, run.startUnixMs = some t →
    run.state ≠ .pending ∧ .committed R t .pending none run.assigned ∈ trace
  ready : ∀ a, run.prep.phases[a]? = some .ready →
    ∃ i, run.assigned.findIdx? (· == a) = some i ∧ .ready R a i ∈ trace
  failed : .prepFailure R ∈ trace → run.prep.failure ≠ none ∧ run.startUnixMs = none

/-- What the log says when a start is sent, committed or ruled out. -/
def Past : Event → List Event → Prop
  | .sent _ (.msg (.start R t)), l => ∃ assigned, .committed R t .pending none assigned ∈ l
  | .committed R _ state failure assigned, l =>
    (state = .pending ∧ failure = none ∧ NoCommit l R ∧ .prepFailure R ∉ l ∧ .timedOut R ∉ l) ∧
      ∀ a ∈ assigned, ∃ i, assigned.findIdx? (· == a) = some i ∧ .ready R a i ∈ l
  | .prepFailure R, l => NoCommit l R
  | .timedOut R, l => NoCommit l R
  | _, _ => True

structure Startable (s : State M) : Prop where
  life : Life s
  claims : ∀ t, ∀ op ∈ s.tasks t, Claims s.shared op
  runs : ∀ R run, s.shared.runs[R]? = some run → RunOk s.trace R run
  /-- Failures are recorded of runs that exist. -/
  known : ∀ R, .prepFailure R ∈ s.trace → R ∈ s.shared.runs
  history : Tasks.Explained Past s.trace

theorem claims_of_isFirst (h : isFirst op = true) : Claims inner op := by
  cases op <;> trivial

theorem Claims.congr {inner' : Inner M} (h : Claims inner op) (hruns : inner'.runs = inner.runs) :
    Claims inner' op := by
  have hcommitted : ∀ R t, CommittedAt inner' R t = CommittedAt inner R t := by
    intro R t
    rw [CommittedAt, CommittedAt, hruns]
  have hpending : ∀ R, NotPending inner' R = NotPending inner R := by
    intro R
    rw [NotPending, NotPending, hruns]
  cases op <;> try exact h
  case recordPrepFailure R reason verdict after => cases after <;> exact h
  case markReady =>
    simp only [Claims, hruns] at h ⊢
    exact h
  case send k item =>
    cases item with
    | aborted => trivial
    | msg m =>
      cases m with
      | start =>
        simp only [Claims, hcommitted] at h ⊢
        exact h
      | registered | assignment | control | uplinkAck => trivial
  all_goals
    simp only [Claims, Lawful, hcommitted, hpending] at h ⊢
    exact h

variable {assigned : List String} {b k : ℕ} {a : String} {state : RunState}
  {failure : Option (String × RunState)}

theorem runOk_submitted {sub : Submission M} {now : ℕ} (hn : .prepFailure R ∉ trace) :
    RunOk trace R (ControllerRun.submitted sub assigned now) where
  waiting _ := .inl rfl
  started t ht := nomatch ht
  ready a ha := by
    rw [phases_submitted] at ha
    split_ifs at ha
    cases ha
  failed hm := absurd hm hn

/-! ## What single operations log -/

theorem exec_commit (h : exec env inner (.barrierCheck R b) = some o)
    (hr : inner.runs[R]? = some run) (hm : MayStart run) :
    o.shared.runs[R]? = some (run.commitStart (env.now + b) env.now) ∧
      o.events = [.committed R (env.now + b) run.state none run.assigned] ∧
      o.ops = [.broadcastStart R (env.now + b)] := by
  simp only [exec] at h
  obtain ⟨-, rfl⟩ := withState_some h hr
  unfold barrierCheck
  simp only [hm.live, hm.unfailed, hm.ready, Bool.false_eq_true, if_false, if_true]
  exact ⟨getElem?_modifyRun hr _, trivial, trivial⟩

theorem exec_prepFailure {reason : String} {verdict : RunState} {after : AfterStart}
    (h : exec env inner (.recordPrepFailure R reason verdict after) = some o)
    (hr : inner.runs[R]? = some run) (hp : run.state = .pending) :
    o.shared.runs[R]? = some (run.recordPrepFailure reason verdict) ∧
      o.events = [.prepFailure R] := by
  simp only [exec] at h
  obtain ⟨-, rfl⟩ := withState_some h hr
  rw [if_pos hp]
  exact ⟨getElem?_modifyRun hr _, rfl⟩

theorem exec_ready {i : ℕ} (h : exec env inner (.markReady a R i) = some o)
    (hr : inner.runs[R]? = some run) (ht : run.state.isTerminal = false) :
    .ready R a i ∈ o.events := by
  simp only [exec] at h
  obtain ⟨-, rfl⟩ := withState_some h hr
  rw [if_neg (by rw [ht]; decide)]
  exact mem_singleton_self _

theorem exec_timedOut (h : exec env inner (.barrierPark R b) = some o) (hm : .timedOut R ∈ o.events) :
    o.events = [.timedOut R] := by
  simp only [exec] at h
  split at h
  · cases h
  · split_ifs at h
    · cases h
      cases hm
    · cases h
      rfl

/-! ## Operations ahead -/

section

variable {t : TaskId} {rest : List (Op M)} (h : Startable s) (hprog : s.tasks t = op :: rest)
  (hexec : exec env s.shared op = some o)

include h hprog

theorem Startable.claims_head : Claims s.shared op :=
  h.claims t op (by simp [hprog])

include hexec

variable {start : ℤ} {run' : ControllerRun M}

theorem Startable.committedAt_stable (hc : CommittedAt s.shared R start) :
    CommittedAt o.shared R start :=
  committedAt_exec hexec (h.life.onPath_of_committed hc hprog) hc

theorem Startable.run_cases (hr : s.shared.runs[R]? = some run) :
    o.shared.runs[R]? = some run ∨
      ∃ run', o.shared.runs[R]? = some run' ∧ RunEffect env R run op run' :=
  h.life.run_of_exec hprog hexec hr

omit hexec in
theorem Startable.effect_notPending (heff : RunEffect env R run op run') (hp : run.state ≠ .pending) :
    run'.state ≠ .pending := by
  cases heff
  case finalize verdict _ _ =>
    have hv : verdict.isTerminal = true := h.life.verdicts.head hprog
    show verdict ≠ .pending
    rintro rfl
    cases hv
  case eventStarted | commitStart | setStopping => exact nofun
  all_goals exact hp

theorem Startable.notPending_stable (hn : NotPending s.shared R) : NotPending o.shared R := by
  obtain ⟨run, hr, hp⟩ := hn
  rcases h.run_cases hprog hexec hr with he | ⟨run', he, heff⟩
  · exact ⟨run, he, hp⟩
  · exact ⟨run', he, h.effect_notPending hprog heff hp⟩

theorem Startable.index_stable {i : ℕ}
    (hi : ∃ run, s.shared.runs[R]? = some run ∧ run.assigned.findIdx? (· == a) = some i) :
    ∃ run, o.shared.runs[R]? = some run ∧ run.assigned.findIdx? (· == a) = some i := by
  obtain ⟨run, hr, hi⟩ := hi
  rcases h.run_cases hprog hexec hr with he | ⟨run', he, heff⟩
  · exact ⟨run, he, hi⟩
  · exact ⟨run', he, by rw [heff.assigned_eq]; exact hi⟩

theorem Startable.lawful_stable {m : AgentMsg M.Bytes} (hm : Lawful s.shared m) :
    Lawful o.shared m := by
  intro ev he hk
  obtain ⟨start, hc⟩ := hm ev he hk
  exact ⟨start, h.committedAt_stable hprog hexec hc⟩

theorem Startable.claims_stable {op' : Op M} (hc : Claims s.shared op') : Claims o.shared op' := by
  cases op' <;> try exact hc
  case eventStarted R =>
    obtain ⟨start, hc⟩ := hc
    exact ⟨start, h.committedAt_stable hprog hexec hc⟩
  case admitMessage | applyAgentMessage => exact h.lawful_stable hprog hexec hc
  case controlTargets | controlInsert | controlWait | controlPark | controlTimeout | controlFinish |
    setStopping => exact h.notPending_stable hprog hexec hc
  case broadcastStart | resumeSender => exact h.committedAt_stable hprog hexec hc
  case markReady => exact h.index_stable hprog hexec hc
  case recordPrepFailure R reason verdict after => cases after <;> exact hc
  case send k item =>
    cases item with
    | aborted => trivial
    | msg m =>
      cases m with
      | start R start => exact h.committedAt_stable hprog hexec hc
      | registered | assignment | control | uplinkAck => trivial

omit hprog hexec in
theorem Startable.committedAt_of_sent (hm : .sent k (.msg (.start R start)) ∈ s.trace) :
    ∃ start, CommittedAt s.shared R start := by
  obtain ⟨l₁, l₂, hl⟩ := append_of_mem hm
  obtain ⟨assigned, hcommit⟩ := h.history.of_eq_append hl
  have hmem : .committed R start .pending none assigned ∈ s.trace := by
    rw [hl]
    exact mem_append_right _ (mem_cons_of_mem _ hcommit)
  exact (h.life.stage R).committedAt hmem

omit hprog hexec in
theorem Startable.lawful_inbound {msg : AgentMessage (AgentMsg M.Bytes)}
    (hguard : lawful s (.step t env) = true) (hin : env.inbound = .message msg) :
    Lawful s.shared msg.msg := by
  intro ev he hk
  obtain ⟨seq, m⟩ := msg
  obtain rfl : m = .event ev := he
  simp only [lawful, hin, hk, bne_self_eq_false, Bool.false_or] at hguard
  obtain ⟨k, start, hm⟩ := startSent_iff.1 hguard
  exact h.committedAt_of_sent hm

theorem Startable.claims_new (hguard : lawful s (.step t env) = true) :
    ∀ op' ∈ o.ops, Claims o.shared op' := by
  intro op' hop'
  have horigin := exec_ops hexec op' hop'
  have hclaims := h.claims_head hprog
  cases op' <;> try exact trivial
  case eventStarted R =>
    obtain ⟨rc, ev, rfl, hk, rfl⟩ := horigin
    obtain ⟨start, hc⟩ := hclaims ev rfl hk
    exact ⟨start, h.committedAt_stable hprog hexec hc⟩
  case admitMessage a k msg => exact h.lawful_stable hprog hexec (h.lawful_inbound hguard horigin.2)
  case applyAgentMessage rc m =>
    obtain ⟨msg, rfl, rfl, -⟩ := horigin
    exact h.lawful_stable hprog hexec hclaims
  case controlTargets call =>
    refine h.notPending_stable hprog hexec ?_
    rcases horigin with ⟨hn, -⟩ | ⟨R, reason, verdict, hn, rfl⟩
    · exact hn
    · exact hclaims ▸ hn
  case controlInsert | controlFinish =>
    obtain ⟨rfl, -⟩ := horigin
    exact h.notPending_stable hprog hexec hclaims
  case controlPark | controlTimeout =>
    obtain rfl := horigin
    exact h.notPending_stable hprog hexec hclaims
  case controlWait call n =>
    refine h.notPending_stable hprog hexec ?_
    rcases horigin with ⟨targets, rfl⟩ | rfl
    · exact hclaims
    · exact hclaims
  case setStopping R =>
    obtain ⟨call, n, rfl, rfl⟩ := horigin
    exact h.notPending_stable hprog hexec hclaims
  case recordPrepFailure R reason verdict after =>
    cases after with
    | nothing | restarted _ | lost _ => trivial
    | control call => exact horigin.2.2
  case broadcastStart R start =>
    obtain ⟨b, run, rfl, hr, hm, rfl⟩ := horigin
    exact ⟨_, (exec_commit hexec hr hm).1, rfl⟩
  case resumeSender a R start => exact h.committedAt_stable hprog hexec horigin.2
  case send k item =>
    cases item with
    | aborted => trivial
    | msg m =>
      cases m with
      | start R start =>
        refine h.committedAt_stable hprog hexec ?_
        rcases horigin with ⟨a, rfl⟩ | rfl
        · exact hclaims
        · exact hclaims
      | registered | assignment | control | uplinkAck => trivial
  case markReady a R i =>
    obtain ⟨rc, -, -, hi⟩ := horigin
    exact h.index_stable hprog hexec hi

/-! ## Runs -/

omit hprog hexec in
theorem Startable.pending_of_mayStart (hprog : s.tasks t = .barrierCheck R b :: rest)
    (hr : s.shared.runs[R]? = some run) (hm : MayStart run) :
    run.startUnixMs = none ∧ run.state = .pending := by
  obtain ⟨-, -, ⟨run', hr', hst⟩, -⟩ := h.life.head hprog
  obtain rfl := some.inj (hr'.symm.trans hr)
  refine ⟨hst, ((h.runs R run' hr).waiting hst).resolve_right ?_⟩
  rw [hm.live]
  decide

theorem Startable.failed_exec (hm : .prepFailure R ∈ o.events ++ s.trace)
    (hr' : o.shared.runs[R]? = some run') : run'.prep.failure ≠ none ∧ run'.startUnixMs = none := by
  rcases mem_append.1 hm with hnew | hold
  · obtain ⟨reason, verdict, after, run, rfl, hr, hp⟩ := exec_events hexec _ hnew
    have he := (exec_prepFailure hexec hr hp).1
    cases he.symm.trans hr'
    rw [recordPrepFailure_eq]
    refine ⟨nofun, ?_⟩
    cases hst : run.startUnixMs with
    | none => rfl
    | some start => exact absurd hp ((h.runs R run hr).started start hst).1
  · have hmem := h.known R hold
    rw [Std.ExtTreeMap.mem_iff_isSome_getElem?, isSome_iff_exists] at hmem
    obtain ⟨run, hr⟩ := hmem
    obtain ⟨hf, hst⟩ := (h.runs R run hr).failed hold
    rcases h.run_cases hprog hexec hr with he | ⟨run₁, he, heff⟩
    · cases he.symm.trans hr'
      exact ⟨hf, hst⟩
    · cases he.symm.trans hr'
      constructor
      · exact isSome_iff_ne_none.1 (heff.failure_mono (isSome_iff_ne_none.2 hf))
      · rcases heff.start_cases with hst' | ⟨b, -, hmay, -⟩
        · rw [hst', hst]
        · cases hf hmay.unfailed

omit hexec in
theorem Startable.effect_waiting (hr : s.shared.runs[R]? = some run)
    (heff : RunEffect env R run op run') (hst : run'.startUnixMs = none) :
    run'.state = .pending ∨ run'.state.isTerminal = true := by
  have hclaims := h.claims_head hprog
  cases heff
  case finalize => exact .inr (h.life.verdicts.head hprog)
  case commitStart => cases hst
  case eventStarted =>
    obtain ⟨start, run₁, hr₁, hst₁⟩ := hclaims
    cases hr₁.symm.trans hr
    cases hst.symm.trans hst₁
  case setStopping hlive =>
    obtain ⟨run₁, hr₁, hp⟩ := hclaims
    obtain rfl := some.inj (hr₁.symm.trans hr)
    rcases (h.runs R run₁ hr).waiting hst with hw | hw
    · cases hp hw
    · exact nomatch hlive.symm.trans hw
  all_goals exact (h.runs R run hr).waiting hst

theorem Startable.effect_started (hr : s.shared.runs[R]? = some run)
    (heff : RunEffect env R run op run') (hst : run'.startUnixMs = some start) :
    run'.state ≠ .pending ∧
      .committed R start .pending none run'.assigned ∈ o.events ++ s.trace := by
  rw [heff.assigned_eq]
  rcases heff.start_cases with he | ⟨b, rfl, hm, rfl⟩
  · obtain ⟨hnp, hmem⟩ := (h.runs R run hr).started start (he ▸ hst)
    exact ⟨h.effect_notPending hprog heff hnp, mem_append_right _ hmem⟩
  · obtain ⟨-, hp⟩ := h.pending_of_mayStart hprog hr hm
    cases hst
    refine ⟨nofun, mem_append_left _ ?_⟩
    rw [(exec_commit hexec hr hm).2.1, hp]
    exact mem_singleton_self _

theorem Startable.effect_ready (hr : s.shared.runs[R]? = some run)
    (heff : RunEffect env R run op run') (ha : run'.prep.phases[a]? = some .ready) :
    ∃ i, run'.assigned.findIdx? (· == a) = some i ∧ .ready R a i ∈ o.events ++ s.trace := by
  rw [heff.assigned_eq]
  have hold : run.prep.phases[a]? = some .ready →
      ∃ i, run.assigned.findIdx? (· == a) = some i ∧ .ready R a i ∈ o.events ++ s.trace := by
    intro ha
    obtain ⟨i, hi, hm⟩ := (h.runs R run hr).ready a ha
    exact ⟨i, hi, mem_append_right _ hm⟩
  cases heff
  case markReady a' i _ ht =>
    by_cases haa : a' = a
    · subst haa
      obtain ⟨run₁, hr₁, hi⟩ := h.claims_head hprog
      cases hr₁.symm.trans hr
      exact ⟨i, hi, mem_append_left _ (exec_ready hexec hr ht)⟩
    · rw [Std.ExtTreeMap.getElem?_insert, if_neg (by simpa using haa)] at ha
      exact hold ha
  all_goals exact hold ha

theorem Startable.runs_exec (hr' : o.shared.runs[R]? = some run') :
    RunOk (o.events ++ s.trace) R run' := by
  rcases exec_run hexec hr' with hr | ⟨run, hr, heff⟩ | ⟨sub, selected, rfl, rfl, rfl⟩
  · have hok := h.runs R run' hr
    refine ⟨hok.waiting, ?_, ?_, fun hm => h.failed_exec hprog hexec hm hr'⟩
    · intro start hst
      obtain ⟨hnp, hm⟩ := hok.started start hst
      exact ⟨hnp, mem_append_right _ hm⟩
    · intro a ha
      obtain ⟨i, hi, hm⟩ := hok.ready a ha
      exact ⟨i, hi, mem_append_right _ hm⟩
  · exact ⟨h.effect_waiting hprog hr heff, fun _ => h.effect_started hprog hexec hr heff,
      fun _ => h.effect_ready hprog hexec hr heff,
      fun hm => h.failed_exec hprog hexec hm hr'⟩
  · cases hexec
    exact runOk_submitted fun hm => (h.life.head hprog).2.2 (h.known _ hm)

/-! ## The log -/

omit hprog in
theorem Startable.known_exec (hm : .prepFailure R ∈ o.events ++ s.trace) : R ∈ o.shared.runs := by
  refine exec_mem_runs hexec ?_
  rcases mem_append.1 hm with hm | hm
  · obtain ⟨-, -, -, run, -, hr, -⟩ := exec_events hexec _ hm
    rw [Std.ExtTreeMap.mem_iff_isSome_getElem?, hr]
    rfl
  · exact h.known R hm

theorem Startable.past_sent {l : List Event} (hm : .sent k (.msg (.start R start)) ∈ o.events) :
    Past (.sent k (.msg (.start R start))) (l ++ s.trace) := by
  rcases exec_events hexec _ hm with rfl | ⟨c, he⟩ | ⟨n, he⟩
  · obtain ⟨run, hr, hst⟩ := h.claims_head hprog
    exact ⟨run.assigned, mem_append_right _ ((h.runs R run hr).started start hst).2⟩
  · cases he
  · cases he

theorem Startable.past_committed (hm : .committed R start state failure assigned ∈ o.events) :
    o.events = [.committed R start state failure assigned] ∧
      Past (.committed R start state failure assigned) s.trace := by
  obtain ⟨b, run, rfl, hr, hmay, rfl, rfl, rfl, rfl⟩ := exec_events hexec _ hm
  obtain ⟨hst, hp⟩ := h.pending_of_mayStart hprog hr hmay
  obtain ⟨-, -, -, hn, ht⟩ := h.life.head hprog
  refine ⟨(exec_commit hexec hr hmay).2.1, ⟨hp, rfl, hn, ?_, ht⟩, ?_⟩
  · intro hfail
    exact ((h.runs R run hr).failed hfail).1 hmay.unfailed
  · intro a ha
    exact (h.runs R run hr).ready a ((h.life.phased R run hr).ready_of_allReady hmay.ready a ha)

theorem Startable.past_prepFailure (hm : .prepFailure R ∈ o.events) :
    o.events = [.prepFailure R] ∧ NoCommit s.trace R := by
  obtain ⟨reason, verdict, after, run, rfl, hr, hp⟩ := exec_events hexec _ hm
  refine ⟨(exec_prepFailure hexec hr hp).2, (h.life.stage R).noCommit ⟨run, hr, ?_⟩⟩
  cases hst : run.startUnixMs with
  | none => rfl
  | some start => exact absurd hp ((h.runs R run hr).started start hst).1

theorem Startable.past_timedOut (hm : .timedOut R ∈ o.events) :
    o.events = [.timedOut R] ∧ NoCommit s.trace R := by
  obtain ⟨b, rfl⟩ := exec_events hexec _ hm
  obtain ⟨-, -, -, hn, -⟩ := h.life.head hprog
  exact ⟨exec_timedOut hexec hm, hn⟩

theorem Startable.history_exec : Tasks.Explained Past (o.events ++ s.trace) := by
  refine h.history.append fun l₁ e l₂ hl => ?_
  have hm : e ∈ o.events := by simp [hl]
  have hsingle : o.events = [e] → l₂ = [] := by
    intro he
    have hlen := congrArg List.length (he.symm.trans hl)
    simp only [length_append, length_cons, length_nil] at hlen
    exact length_eq_zero_iff.1 (by omega)
  cases e <;> try exact trivial
  case sent k item =>
    cases item with
    | aborted => trivial
    | msg m =>
      cases m with
      | start R start => exact h.past_sent hprog hexec hm
      | registered | assignment | control | uplinkAck => trivial
  case committed R start state failure assigned =>
    obtain ⟨he, hpast⟩ := h.past_committed hprog hexec hm
    rw [hsingle he]
    exact hpast
  case prepFailure R =>
    obtain ⟨he, hn⟩ := h.past_prepFailure hprog hexec hm
    rw [hsingle he]
    exact hn
  case timedOut R =>
    obtain ⟨he, hn⟩ := h.past_timedOut hprog hexec hm
    rw [hsingle he]
    exact hn

theorem Startable.claims_exec (hguard : lawful s (.step t env) = true) (t' : TaskId) :
    ∀ op' ∈ (s.commit t rest o).tasks t', Claims o.shared op' := by
  intro op' hop'
  rcases mem_commit hprog hexec hop' with ⟨hold, -⟩ | hbegins | ⟨-, hnew⟩
  · exact h.claims_stable hprog hexec (h.claims t' op' hold)
  · exact claims_of_isFirst hbegins.isFirst
  · exact h.claims_new hprog hexec hguard op' hnew

theorem Startable.exec_step (hguard : lawful s (.step t env) = true) :
    Startable (s.commit t rest o) where
  life := h.life.commit hprog hexec
  claims := h.claims_exec hprog hexec hguard
  runs _ _ := h.runs_exec hprog hexec
  known _ := h.known_exec hexec
  history := h.history_exec hprog hexec

end

theorem Startable.opens {t : TaskId} {act : Action M} (h : Startable s) (hlife : Life s')
    (ho : Opens s act t op s') : Startable s' where
  life := hlife
  claims t' op' hop' := by
    rcases ho.mem hop' with hold | ⟨rfl, rfl⟩
    · exact (h.claims t' op' hold).congr ho.runs
    · exact claims_of_isFirst ho.begins.isFirst
  runs R run hr := ho.trace ▸ h.runs R run (ho.runs ▸ hr)
  known R hm := ho.runs ▸ h.known R (ho.trace ▸ hm)
  history := ho.trace ▸ h.history

theorem Startable.step {act : Action M} (h : Startable s) (hguard : lawful s act = true)
    (hstep : Step s act s') : Startable s' := by
  rcases step_cases hstep with ⟨t, hprog, hexec, -⟩ | ⟨t, op, ho⟩
  · exact h.exec_step hprog hexec hguard
  · exact h.opens (h.life.step hstep) ho

theorem startable_initial (liveness : ℕ) : Startable (initial M liveness) where
  life := life_initial liveness
  claims t op hop := by
    rw [initial_tasks liveness t op hop]
    trivial
  runs R run hr := by cases hr
  known R := nofun
  history := trivial

theorem startable_of_reachable
    (h : ((machine M).guarded fun s act => lawful s act = true).Reachable s) : Startable s :=
  guarded_invariant startable_initial (fun _ hguard hs => hs.step hguard) h

/-! ## What the log says about a start -/

/-- What the controller has done about the start of `R`, by its log, newest event first. -/
structure StartSafe (s : Controller.State M) (R : String) : Prop where
  /-- A start is sent only after a commit of its time. -/
  sent_after_commit : ∀ later k t earlier,
    s.trace = later ++ .sent k (.msg (.start R t)) :: earlier →
    ∃ state failure assigned, .committed R t state failure assigned ∈ earlier
  commit_once : ∀ later t state failure assigned earlier,
    s.trace = later ++ .committed R t state failure assigned :: earlier →
    NoCommit later R ∧ NoCommit earlier R
  /-- At the commit the run was pending, nothing had failed, and every assigned agent had reported
  its own partition ready. -/
  commit_ready : ∀ later t state failure assigned earlier,
    s.trace = later ++ .committed R t state failure assigned :: earlier →
    state = .pending ∧ failure = none ∧ .prepFailure R ∉ earlier ∧ .timedOut R ∉ earlier ∧
      (∃ run, s.shared.runs[R]? = some run ∧ run.assigned = assigned) ∧
      ∀ a ∈ assigned, ∃ i, assigned.findIdx? (· == a) = some i ∧ .ready R a i ∈ earlier
  same_time : ∀ k₁ t₁ k₂ t₂, .sent k₁ (.msg (.start R t₁)) ∈ s.trace →
    .sent k₂ (.msg (.start R t₂)) ∈ s.trace → t₁ = t₂
  /-- Only a commit lets the run leave `Pending` other than to its end. -/
  running_committed : ∀ run, s.shared.runs[R]? = some run → run.state ≠ .pending →
    run.state.isTerminal = false → ∃ t state failure assigned,
      .committed R t state failure assigned ∈ s.trace
  /-- A failure or the timeout, once decided, rules the start out. -/
  ruled_out : .prepFailure R ∈ s.trace ∨ .timedOut R ∈ s.trace →
    NoCommit s.trace R ∧ (∀ k t, .sent k (.msg (.start R t)) ∉ s.trace) ∧
      ∃ run, s.shared.runs[R]? = some run ∧ (run.state = .pending ∨ run.state.isTerminal = true)

section

variable (h : Startable s)
include h

theorem Startable.commit_once {later earlier : List Event} {t : ℤ}
    (hs : s.trace = later ++ .committed R t state failure assigned :: earlier) :
    NoCommit later R ∧ NoCommit earlier R := by
  refine ⟨?_, (h.history.of_eq_append hs).1.2.2.1⟩
  intro t' state' failure' assigned' hm
  obtain ⟨l₁, l₂, rfl⟩ := append_of_mem hm
  have hs' : s.trace = l₁ ++ .committed R t' state' failure' assigned' ::
      (l₂ ++ .committed R t state failure assigned :: earlier) := by
    rw [hs, append_assoc, cons_append]
  have hno := (h.history.of_eq_append hs').1.2.2.1
  exact hno t state failure assigned (by simp)

theorem Startable.on_record {t : ℤ}
    (hm : .committed R t state failure assigned ∈ s.trace) :
    ∃ run, s.shared.runs[R]? = some run ∧ run.startUnixMs = some t ∧ run.assigned = assigned := by
  obtain ⟨t', run, hr, hst⟩ := (h.life.stage R).committedAt hm
  have hrecord := ((h.runs R run hr).started t' hst).2
  obtain ⟨later, earlier, hs⟩ := append_of_mem hm
  obtain ⟨hlater, hearlier⟩ := h.commit_once hs
  rw [hs] at hrecord
  rcases mem_append.1 hrecord with hin | hin
  · exact absurd hin (hlater _ _ _ _)
  · rcases mem_cons.1 hin with he | hin
    · cases he
      exact ⟨run, hr, hst, rfl⟩
    · exact absurd hin (hearlier _ _ _ _)

theorem Startable.commit_of_sent {t : ℤ}
    (hm : .sent k (.msg (.start R t)) ∈ s.trace) :
    ∃ state failure assigned, .committed R t state failure assigned ∈ s.trace := by
  obtain ⟨later, earlier, hs⟩ := append_of_mem hm
  obtain ⟨assigned, hc⟩ := h.history.of_eq_append hs
  refine ⟨.pending, none, assigned, ?_⟩
  rw [hs]
  exact mem_append_right _ (mem_cons_of_mem _ hc)

theorem Startable.known_of_decided
    (hd : .prepFailure R ∈ s.trace ∨ .timedOut R ∈ s.trace) : R ∈ s.shared.runs := by
  rcases hd with hm | hm
  · exact h.known R hm
  · by_contra hR
    exact absurd hm ((h.life.stage R).undecided hR).timely

theorem Startable.uncommitted_of_decided
    (hd : .prepFailure R ∈ s.trace ∨ .timedOut R ∈ s.trace) : Uncommitted s.shared R := by
  obtain ⟨run, hr⟩ := isSome_iff_exists.1
    (Std.ExtTreeMap.mem_iff_isSome_getElem?.1 (h.known_of_decided hd))
  refine ⟨run, hr, ?_⟩
  rcases hd with hm | hm
  · exact ((h.runs R run hr).failed hm).2
  · cases hst : run.startUnixMs with
    | none => rfl
    | some t => exact absurd hm ((h.life.stage R).of_committed ⟨run, hr, hst⟩).2

theorem Startable.startSafe (R : String) : StartSafe s R where
  sent_after_commit later k t earlier hs := by
    obtain ⟨assigned, hc⟩ := h.history.of_eq_append hs
    exact ⟨_, _, assigned, hc⟩
  commit_once later t state failure assigned earlier hs := h.commit_once hs
  commit_ready later t state failure assigned earlier hs := by
    obtain ⟨⟨hstate, hfailure, -, hprep, htimeout⟩, hready⟩ := h.history.of_eq_append hs
    have hm : .committed R t state failure assigned ∈ s.trace := by simp [hs]
    obtain ⟨run, hr, -, hassigned⟩ := h.on_record hm
    exact ⟨hstate, hfailure, hprep, htimeout, ⟨run, hr, hassigned⟩, hready⟩
  same_time k₁ t₁ k₂ t₂ hm₁ hm₂ := by
    obtain ⟨_, _, _, hc₁⟩ := h.commit_of_sent hm₁
    obtain ⟨_, _, _, hc₂⟩ := h.commit_of_sent hm₂
    obtain ⟨run₁, hr₁, hst₁, -⟩ := h.on_record hc₁
    obtain ⟨run₂, hr₂, hst₂, -⟩ := h.on_record hc₂
    cases hr₁.symm.trans hr₂
    exact some.inj (hst₁.symm.trans hst₂)
  running_committed run hr hpending hlive := by
    cases hst : run.startUnixMs with
    | none =>
      rcases (h.runs R run hr).waiting hst with hp | hterm
      · cases hpending hp
      · exact absurd (hterm.symm.trans hlive) nofun
    | some t => exact ⟨t, _, _, _, ((h.runs R run hr).started t hst).2⟩
  ruled_out hd := by
    obtain ⟨run, hr, hst⟩ := h.uncommitted_of_decided hd
    have hno : NoCommit s.trace R := (h.life.stage R).noCommit ⟨run, hr, hst⟩
    refine ⟨hno, ?_, run, hr, (h.runs R run hr).waiting hst⟩
    intro k t hm
    obtain ⟨_, _, _, hc⟩ := h.commit_of_sent hm
    exact hno _ _ _ _ hc

end

end Barrier

end Controller

end Loadr
