import Loadr.Controller.Steps

/-!
# The life of a run

A submission reserves its agents, inserts the run, sends the assignments and spawns the preparation
barrier, which looks at the run and waits until it can decide.  At most one operation of this path
is ahead at any time.  `Stage` lists where a run can stand on it, with what is then known of it.
-/

namespace Loadr

open List Option Std.ExtTreeMap

namespace Controller

variable {M : Metering} {env : Env M} {inner : Inner M} {op : Op M} {o : Outcome M}
  {s s' : State M} {R : String} {trace : List Event}

def onPath : Op M → Option String
  | .reserveAgents sub | .insertRun sub _ => some sub.runId
  | .spawnBarrier runId _ | .barrierCheck runId _ | .barrierPark runId _ => some runId
  | _ => none

/-- The operations that begin and end the broadcast of a start. -/
def isCast (R : String) : Op M → Bool
  | .broadcastStart R' _ | .broadcastDone R' => R' == R
  | _ => false

def Off (R : String) (p : List (Op M)) : Prop := ∀ op ∈ p, onPath op ≠ some R ∧ isCast R op = false

theorem off_nil : Off R ([] : List (Op M)) := forall_mem_nil _

variable {p q rest : List (Op M)} {t : TaskId} {run : ControllerRun M} {sub : Submission M} {b : ℕ}

theorem off_of_exec (h : exec env inner op = some o)
    (hop : onPath op ≠ some R ∧ isCast R op = false) : Off R o.ops := by
  intro op' hop'
  have horigin := exec_ops h op' hop'
  refine ⟨fun hR => ?_, Bool.eq_false_iff.2 fun hc => ?_⟩
  · cases op' <;> simp only [onPath, some.injEq, reduceCtorEq] at hR
    case reserveAgents => exact horigin
    case insertRun =>
      subst hR
      obtain ⟨rfl, -⟩ := horigin
      exact hop.1 rfl
    case barrierCheck | barrierPark =>
      subst hR
      obtain rfl := horigin
      exact hop.1 rfl
    case spawnBarrier =>
      subst hR
      obtain ⟨sub, selected, rfl, rfl⟩ := horigin
      exact hop.1 rfl
  · cases op' <;> simp only [isCast, Bool.false_eq_true] at hc
    case broadcastStart =>
      obtain rfl := beq_iff_eq.1 hc
      obtain ⟨b, run, rfl, -⟩ := horigin
      exact hop.1 rfl
    case broadcastDone =>
      obtain ⟨t, rfl⟩ := horigin
      cases hop.2.symm.trans hc

theorem off_exec (h : exec env inner op = some o) (hp : Off R (op :: rest)) :
    Off R (o.ops ++ rest) := by
  obtain ⟨hop, hrest⟩ := forall_mem_cons.1 hp
  exact forall_mem_append.2 ⟨off_of_exec h hop, hrest⟩

theorem Begins.off {act : Action M} (h : Begins act t op) (hs : t ≠ .submit R)
    (hb : t ≠ .barrier R) : onPath op ≠ some R ∧ isCast R op = false := by
  cases op <;> simp_all [onPath, isCast, Begins]

theorem Begins.submits {act : Action M} (h : Begins act t op) (ht : t = .submit R) :
    ∃ sub, op = .reserveAgents sub ∧ sub.runId = R := by
  cases op <;> simp_all [Begins]

def Uncommitted (inner : Inner M) (R : String) : Prop :=
  ∃ run, inner.runs[R]? = some run ∧ run.startUnixMs = none

def NoCommit (trace : List Event) (R : String) : Prop :=
  ∀ t state failure assigned, .committed R t state failure assigned ∉ trace

/-- Neither the start nor the end of the wait is on record. -/
structure Undecided (trace : List Event) (R : String) : Prop where
  noCommit : NoCommit trace R
  timely : .timedOut R ∉ trace
  unsent : .broadcast R ∉ trace

/-- Operations that never wait and end in sends. -/
def isPrompt : Op M → Bool
  | .noteAbort .. | .stopRun _ | .send .. => true
  | _ => false

def Prompt (p : List (Op M)) : Prop := ∀ op ∈ p, isPrompt op = true

theorem off_of_isPrompt (h : isPrompt op = true) : onPath op ≠ some R ∧ isCast R op = false := by
  cases op <;> simp_all [onPath, isCast, isPrompt]

theorem Prompt.off (h : Prompt p) : Off R p := fun op hop => off_of_isPrompt (h op hop)

theorem prompt_append (hp : Prompt p) (hq : Prompt q) : Prompt (p ++ q) :=
  forall_mem_append.2 ⟨hp, hq⟩

theorem sends_of_exec (h : exec env inner op = some o) (hop : isPrompt op = true) :
    ∀ op' ∈ o.ops, ∃ k item, op' = .send k item := by
  cases op <;> simp only [isPrompt, Bool.false_eq_true] at hop
  case noteAbort R reason =>
    cases h
    exact forall_mem_nil _
  case stopRun R =>
    simp only [exec, some.injEq] at h
    rcases withRun_cases inner R _ with ⟨-, he⟩ | ⟨run, -, he⟩
    · rw [← h, he]
      exact forall_mem_nil _
    · rw [← h, he]
      exact forall_mem_map.2 fun _ _ => ⟨_, _, rfl⟩
  case send k item =>
    cases h
    unfold deliver
    split <;> exact forall_mem_nil _

theorem prompt_of_exec (h : exec env inner op = some o) (hop : isPrompt op = true) :
    Prompt o.ops := by
  intro op' hop'
  obtain ⟨k, item, rfl⟩ := sends_of_exec h hop op' hop'
  rfl

/-- The run is settled, or its barrier has yet to settle it. -/
def Settling (inner : Inner M) (R : String) (barrier : List (Op M)) : Prop :=
  (∃ run, inner.runs[R]? = some run ∧ run.state.isTerminal = true) ∨
    barrier = [.barrierTimeout R] ∨
    ∃ ops verdict, Prompt ops ∧ barrier = ops ++ [.finalize R verdict]

/-- The broadcast of a start is ahead, under way, or over. -/
inductive Casting (R : String) (trace : List Event) : List (Op M) → Prop
  | starting (t : ℤ) : .broadcast R ∉ trace → Casting R trace [.broadcastStart R t]
  | sending (q : List (Op M)) : Off R q → .broadcast R ∉ trace →
    Casting R trace (q ++ [.broadcastDone R])
  | off {q : List (Op M)} : Off R q → Casting R trace q

/-- Where the barrier of a run stands, by its program. -/
inductive BarrierStage (inner : Inner M) (trace : List Event) (R : String) : List (Op M) → Prop
  | checking (b : ℕ) : Uncommitted inner R → Undecided trace R →
    BarrierStage inner trace R [.barrierCheck R b]
  | parking (b : ℕ) : Uncommitted inner R → Undecided trace R →
    BarrierStage inner trace R [.barrierPark R b]
  | failing {q : List (Op M)} : Off R q → Uncommitted inner R → NoCommit trace R →
    .broadcast R ∉ trace → Settling inner R q → BarrierStage inner trace R q
  | committed {q : List (Op M)} (t : ℤ) : Casting R trace q → CommittedAt inner R t →
    .timedOut R ∉ trace → BarrierStage inner trace R q

/-- Where a run stands, by the programs of its submission and of its barrier. -/
inductive Stage (inner : Inner M) (trace : List Event) (R : String) :
    List (Op M) → List (Op M) → Prop
  | absent : R ∉ inner.runs → Undecided trace R → Stage inner trace R [] []
  | reserving (sub : Submission M) : sub.runId = R → R ∉ inner.runs → Undecided trace R →
    Stage inner trace R [.reserveAgents sub] []
  | inserting (sub : Submission M) (selected : List (String × ℕ)) : sub.runId = R →
    R ∉ inner.runs → Undecided trace R → Stage inner trace R [.insertRun sub selected] []
  | spawning (ops : List (Op M)) (b : ℕ) : Prompt ops → Uncommitted inner R → Undecided trace R →
    Stage inner trace R (ops ++ [.spawnBarrier R b]) []
  | spawned {p q : List (Op M)} : Off R p → BarrierStage inner trace R q → Stage inner trace R p q

/-! ## Verdicts -/

def Final : Op M → Prop
  | .recordPrepFailure _ _ verdict _ | .finalize _ verdict => verdict.isTerminal = true
  | _ => True

structure Verdicts (s : State M) : Prop where
  ahead : ∀ t, ∀ op ∈ s.tasks t, Final op
  recorded : ∀ (R : String) (run : ControllerRun M), s.shared.runs[R]? = some run →
    ∀ failure, run.prep.failure = some failure → failure.2.isTerminal = true

theorem Verdicts.head (h : Verdicts s) (hprog : s.tasks t = op :: rest) : Final op := by
  refine h.ahead t op ?_
  rw [hprog]
  exact mem_cons_self

theorem Verdicts.recorded_exec (h : Verdicts s) (hprog : s.tasks t = op :: rest)
    (hexec : exec env s.shared op = some o) {run' : ControllerRun M}
    (hr' : o.shared.runs[R]? = some run') {failure : String × RunState}
    (hf : run'.prep.failure = some failure) : failure.2.isTerminal = true := by
  rcases exec_run hexec hr' with hr | ⟨run, hr, heff⟩ | ⟨sub, selected, -, -, rfl⟩
  · exact h.recorded R run' hr failure hf
  · have hold := h.recorded R run hr
    cases heff
    case recordPrepFailure =>
      cases hf
      cases hold' : run.prep.failure with
      | some failure => exact hold failure hold'
      | none => exact h.head hprog
    all_goals exact hold failure hf
  · cases hf

theorem Verdicts.final_ops (h : Verdicts s) (hexec : exec env s.shared op = some o) :
    ∀ op' ∈ o.ops, Final op' := by
  intro op' hop'
  have horigin := exec_ops hexec op' hop'
  cases op' <;> try exact trivial
  case recordPrepFailure => exact horigin.1
  case finalize R verdict =>
    rcases horigin with hv | ⟨b, run, reason, -, hr, hf⟩
    · exact hv
    · exact h.recorded R run hr _ hf

theorem Verdicts.step {act : Action M} (h : Verdicts s) (hstep : Step s act s') : Verdicts s' where
  ahead t' := by
    refine forall_tasks_step hstep (fun op' hf => ?_) (fun _ hexec => h.final_ops hexec)
      (h.ahead t')
    cases op' <;> trivial
  recorded R run hr := by
    rcases step_cases hstep with ⟨t, hprog, hexec, -⟩ | ⟨t, op, ho⟩
    · exact fun _ => h.recorded_exec hprog hexec hr
    · exact h.recorded R run (ho.runs ▸ hr)

/-! ## Preparation phases -/

theorem getElem?_insertMany_const (m : Std.ExtTreeMap String PrepPhase compare)
    (ids : List String) (a : String) :
    (m.insertMany (ids.map fun id => (id, PrepPhase.assigned)))[a]? =
      if a ∈ ids then some .assigned else m[a]? := by
  induction ids generalizing m with
  | nil => simp
  | cons id ids ih =>
    rw [map_cons, Std.ExtTreeMap.insertMany_cons, ih, Std.ExtTreeMap.getElem?_insert]
    by_cases ha : a = id
    · subst ha
      simp
    · by_cases hids : a ∈ ids
      · simp [hids]
      · simp [hids, ha, Ne.symm ha]

theorem phases_submitted (sub : Submission M) (assigned : List String) (now : ℕ) (a : String) :
    (ControllerRun.submitted sub assigned now).prep.phases[a]? =
      if a ∈ assigned then some .assigned else none := by
  show (Std.ExtTreeMap.ofList (assigned.map fun id => (id, PrepPhase.assigned)) compare)[a]? = _
  rw [ofList_eq_insertMany_empty, getElem?_insertMany_const]
  simp

structure Phased (run : ControllerRun M) : Prop where
  covered : ∀ a ∈ run.assigned, a ∈ run.prep.phases
  /-- The start is committed when everybody is ready. -/
  ready : run.startUnixMs ≠ none → ∀ a ∈ run.assigned, run.prep.phases[a]? = some .ready

theorem phased_submitted (sub : Submission M) (assigned : List String) (now : ℕ) :
    Phased (ControllerRun.submitted sub assigned now) where
  covered a ha := by
    have ha' : a ∈ assigned := ha
    rw [mem_iff_isSome_getElem?, phases_submitted, if_pos ha']
    rfl
  ready hstart := absurd rfl hstart

section

variable {run' : ControllerRun M}

theorem Phased.ready_of_allReady (h : Phased run) (hr : run.allReady = true) (a : String)
    (ha : a ∈ run.assigned) : run.prep.phases[a]? = some .ready := by
  have hmem := h.covered a ha
  rw [mem_iff_isSome_getElem?, isSome_iff_exists] at hmem
  obtain ⟨phase, hp⟩ := hmem
  have hall := all_eq_true.1 hr (a, phase)
    (mem_toList_iff_getElem?_eq_some.2 hp)
  rw [beq_iff_eq] at hall
  rw [hp]
  exact congrArg some hall

theorem Phased.effect (h : Phased run) (heff : RunEffect env R run op run') : Phased run' := by
  have hphases : (∀ a ∈ run.prep.phases, a ∈ run'.prep.phases) ∧
      ∀ a : String, run.prep.phases[a]? = some .ready → run'.prep.phases[a]? = some .ready := by
    cases heff
    case markReady =>
      refine ⟨fun a ha => mem_insert.2 (.inr ha), fun a ha => ?_⟩
      rw [Std.ExtTreeMap.getElem?_insert]
      split_ifs
      · rfl
      · exact ha
    all_goals exact ⟨fun _ ha => ha, fun _ ha => ha⟩
  constructor
  · rw [heff.assigned_eq]
    exact fun a ha => hphases.1 a (h.covered a ha)
  · intro hstart a ha
    rw [heff.assigned_eq] at ha
    rcases heff.start_cases with hst | ⟨b, -, hmay, -⟩
    · rw [hst] at hstart
      exact hphases.2 a (h.ready hstart a ha)
    · exact hphases.2 a (h.ready_of_allReady hmay.ready a ha)

end

theorem phased_exec (hexec : exec env inner op = some o)
    (h : ∀ (R : String) (run : ControllerRun M), inner.runs[R]? = some run → Phased run)
    (R : String) (run' : ControllerRun M) (hr' : o.shared.runs[R]? = some run') : Phased run' := by
  rcases exec_run hexec hr' with hr | ⟨run, hr, heff⟩ | ⟨sub, selected, -, -, rfl⟩
  · exact h R run' hr
  · exact (h R run hr).effect heff
  · exact phased_submitted _ _ _

/-! ## Steps off the path -/

/-- What is known about a run stays true. -/
structure Persists (inner : Inner M) (trace : List Event) (inner' : Inner M) (trace' : List Event)
    (R : String) : Prop where
  absent : R ∉ inner.runs → R ∉ inner'.runs
  uncommitted : Uncommitted inner R → Uncommitted inner' R
  committed : ∀ {t}, CommittedAt inner R t → CommittedAt inner' R t
  settling : ∀ {q}, Settling inner R q → Settling inner' R q
  noCommit : NoCommit trace R → NoCommit trace' R
  timely : .timedOut R ∉ trace → .timedOut R ∉ trace'
  unsent : .broadcast R ∉ trace → .broadcast R ∉ trace'

section

variable {inner' : Inner M} {trace' : List Event} (h : Persists inner trace inner' trace' R)

include h

theorem Persists.undecided (hd : Undecided trace R) : Undecided trace' R :=
  ⟨h.noCommit hd.noCommit, h.timely hd.timely, h.unsent hd.unsent⟩

theorem Persists.casting (hc : Casting R trace q) : Casting R trace' q := by
  cases hc with
  | starting t hn => exact .starting t (h.unsent hn)
  | sending q hoff hn => exact .sending q hoff (h.unsent hn)
  | off hoff => exact .off hoff

theorem Persists.barrier (hb : BarrierStage inner trace R q) : BarrierStage inner' trace' R q := by
  cases hb with
  | checking b hu hd => exact .checking b (h.uncommitted hu) (h.undecided hd)
  | parking b hu hd => exact .parking b (h.uncommitted hu) (h.undecided hd)
  | failing hoff hu hn hb hs =>
    exact .failing hoff (h.uncommitted hu) (h.noCommit hn) (h.unsent hb) (h.settling hs)
  | committed t hcast hc ht => exact .committed t (h.casting hcast) (h.committed hc) (h.timely ht)

theorem Persists.stage (hs : Stage inner trace R p q) : Stage inner' trace' R p q := by
  cases hs with
  | absent hR hd => exact .absent (h.absent hR) (h.undecided hd)
  | reserving sub hsub hR hd => exact .reserving sub hsub (h.absent hR) (h.undecided hd)
  | inserting sub selected hsub hR hd =>
    exact .inserting sub selected hsub (h.absent hR) (h.undecided hd)
  | spawning ops b hops hu hd => exact .spawning ops b hops (h.uncommitted hu) (h.undecided hd)
  | spawned hoff hb => exact .spawned hoff (h.barrier hb)

end

theorem persists_of_runs {inner' : Inner M} (hruns : inner'.runs = inner.runs) :
    Persists inner trace inner' trace R := by
  constructor <;> simp [Uncommitted, CommittedAt, Settling, hruns]

section

variable (h : exec env inner op = some o) (hop : onPath op ≠ some R)

include h hop

theorem not_mem_runs_exec (hR : R ∉ inner.runs) : R ∉ o.shared.runs := by
  rw [mem_iff_isSome_getElem?] at hR ⊢
  rcases exec_runs h R with he | ⟨run, run', hr, -, -⟩ | ⟨sub, selected, rfl, hsub, -⟩
  · rw [he]
    exact hR
  · rw [hr] at hR
    cases hR rfl
  · cases hop (congrArg some hsub)

theorem start_exec (hr : inner.runs[R]? = some run) :
    ∃ run', o.shared.runs[R]? = some run' ∧ run'.startUnixMs = run.startUnixMs := by
  rcases exec_runs h R with he | ⟨run₀, run', hr₀, he, heff⟩ | ⟨sub, selected, rfl, hsub, -⟩
  · exact ⟨run, he.trans hr, rfl⟩
  · cases hr₀.symm.trans hr
    rcases heff.start_cases with hst | ⟨b, rfl, -⟩
    · exact ⟨run', he, hst⟩
    · cases hop rfl
  · cases hop (congrArg some hsub)

theorem uncommitted_exec (hu : Uncommitted inner R) : Uncommitted o.shared R := by
  obtain ⟨run, hr, hst⟩ := hu
  obtain ⟨run', hr', hst'⟩ := start_exec h hop hr
  exact ⟨run', hr', hst'.trans hst⟩

theorem committedAt_exec {t : ℤ} (hc : CommittedAt inner R t) : CommittedAt o.shared R t := by
  obtain ⟨run, hr, hst⟩ := hc
  obtain ⟨run', hr', hst'⟩ := start_exec h hop hr
  exact ⟨run', hr', hst'.trans hst⟩

theorem noCommit_exec (hn : NoCommit trace R) : NoCommit (o.events ++ trace) R := by
  intro t state failure assigned hm
  rcases mem_append.1 hm with hm | hm
  · obtain ⟨b, run, rfl, -⟩ := exec_events h _ hm
    exact hop rfl
  · exact hn t state failure assigned hm

theorem not_timedOut_exec (hn : .timedOut R ∉ trace) : .timedOut R ∉ o.events ++ trace := by
  intro hm
  rcases mem_append.1 hm with hm | hm
  · obtain ⟨b, rfl⟩ := exec_events h _ hm
    exact hop rfl
  · exact hn hm

theorem terminal_exec (hr : inner.runs[R]? = some run) (ht : run.state.isTerminal = true) :
    ∃ run', o.shared.runs[R]? = some run' ∧ run'.state.isTerminal = true := by
  rcases exec_runs h R with he | ⟨run₀, run', hr₀, he, heff⟩ | ⟨sub, selected, rfl, hsub, -⟩
  · exact ⟨run, he.trans hr, ht⟩
  · cases hr₀.symm.trans hr
    exact ⟨run', he, heff.terminal_mono ht⟩
  · exact absurd (congrArg some hsub) hop

omit hop in
theorem not_broadcast_exec (hop : isCast R op = false) (hn : .broadcast R ∉ trace) :
    .broadcast R ∉ o.events ++ trace := by
  intro hm
  rcases mem_append.1 hm with hm | hm
  · obtain rfl := exec_events h _ hm
    cases hop.symm.trans (beq_self_eq_true R)
  · exact hn hm

theorem persists_exec (hcast : isCast R op = false) :
    Persists inner trace o.shared (o.events ++ trace) R where
  absent := not_mem_runs_exec h hop
  uncommitted := uncommitted_exec h hop
  committed := committedAt_exec h hop
  noCommit := noCommit_exec h hop
  timely := not_timedOut_exec h hop
  unsent := not_broadcast_exec h hcast
  settling hs := by
    rcases hs with ⟨run, hr, ht⟩ | hs
    · exact .inl (terminal_exec h hop hr ht)
    · exact .inr hs

end

/-! ## Steps of the submission -/

theorem stage_reserve (h : exec env inner (.reserveAgents sub) = some o)
    (hR : sub.runId ∉ inner.runs) (hd : Undecided trace sub.runId) :
    Stage o.shared (o.events ++ trace) sub.runId o.ops [] := by
  simp only [exec] at h
  split at h
  · cases h
    exact .absent hR hd
  · cases h
    exact .inserting sub _ rfl hR hd

theorem stage_insert {selected : List (String × ℕ)}
    (h : exec env inner (.insertRun sub selected) = some o) (hd : Undecided trace sub.runId) :
    Stage o.shared (o.events ++ trace) sub.runId o.ops [] := by
  cases h
  refine .spawning _ _ ?_ ⟨_, getElem?_insert_self, rfl⟩ hd
  intro op' hop'
  obtain ⟨target, -, ha⟩ := mem_filterMap.1 hop'
  obtain ⟨a, -, rfl⟩ := map_eq_some_iff.1 ha
  rfl

theorem stage_submit (hs : Stage inner trace R (op :: rest) q) (h : exec env inner op = some o) :
    (∃ b, op = .spawnBarrier R b ∧
      Stage o.shared (o.events ++ trace) R (o.ops ++ rest) [.barrierCheck R b]) ∨
    (∀ b, op ≠ .spawnBarrier R b) ∧ Stage o.shared (o.events ++ trace) R (o.ops ++ rest) q := by
  have hne : onPath op ≠ some R → ∀ b, op ≠ .spawnBarrier R b := by
    rintro hop b rfl
    exact hop rfl
  generalize hl : op :: rest = p at hs
  cases hs with
  | absent => cases hl
  | reserving sub hsub hR hd =>
    cases hl
    subst hsub
    rw [append_nil]
    exact .inr ⟨nofun, stage_reserve h hR hd⟩
  | inserting sub selected hsub hR hd =>
    cases hl
    subst hsub
    rw [append_nil]
    exact .inr ⟨nofun, stage_insert h hd⟩
  | spawning ops b hprompt hu hd =>
    cases ops with
    | nil =>
      cases hl
      cases h
      refine .inl ⟨b, rfl, .spawned off_nil (.checking b hu ?_)⟩
      exact ⟨by simpa [NoCommit] using hd.noCommit, by simp [hd.timely], by simp [hd.unsent]⟩
    | cons op' ops =>
      cases hl
      obtain ⟨hfirst, hops⟩ := forall_mem_cons.1 hprompt
      obtain ⟨hop, hcast⟩ := off_of_isPrompt (R := R) hfirst
      have hkeeps : Persists inner trace o.shared (o.events ++ trace) R := persists_exec h hop hcast
      refine .inr ⟨hne hop, ?_⟩
      show Stage _ _ R (o.ops ++ (ops ++ [.spawnBarrier R b])) []
      rw [← append_assoc]
      exact .spawning _ b (prompt_append (prompt_of_exec h hfirst) hops) (hkeeps.uncommitted hu)
        (hkeeps.undecided hd)
  | spawned hoff hb =>
    subst hl
    obtain ⟨hop, hcast⟩ := hoff op mem_cons_self
    exact .inr ⟨hne hop, .spawned (off_exec h hoff) ((persists_exec h hop hcast).barrier hb)⟩

/-! ## Steps of the barrier -/

theorem stage_check (h : exec env inner (.barrierCheck R b) = some o) (hu : Uncommitted inner R)
    (hd : Undecided trace R) : BarrierStage o.shared (o.events ++ trace) R o.ops := by
  obtain ⟨run, hr, hst⟩ := hu
  simp only [exec] at h
  obtain ⟨hheld, rfl⟩ := withState_some h hr
  unfold barrierCheck
  by_cases hterm : run.state.isTerminal = true
  · rw [if_pos hterm]
    exact .failing off_nil ⟨run, hr, hst⟩ hd.noCommit hd.unsent (.inl ⟨run, hr, hterm⟩)
  · rw [if_neg hterm]
    cases hfail : run.prep.failure with
    | some failure =>
      refine .failing ?_ ⟨run, hr, hst⟩ hd.noCommit hd.unsent (.inr (.inr ?_))
      · simp [Off, giveUp, onPath, isCast]
      · exact ⟨[.noteAbort R failure.1, .stopRun R], failure.2, by simp [Prompt, isPrompt], rfl⟩
    | none =>
      by_cases hready : run.allReady = true
      · simp only [hready, if_true]
        refine .committed (env.now + b) (.starting _ ?_)
          ⟨run.commitStart (env.now + b) env.now, getElem?_modifyRun hr _, rfl⟩ ?_
        · simp [hd.unsent]
        · simp [hd.timely]
      · simp only [hready]
        exact .parking b ⟨run, hr, hst⟩ hd

theorem stage_park (h : exec env inner (.barrierPark R b) = some o) (hu : Uncommitted inner R)
    (hd : Undecided trace R) : BarrierStage o.shared (o.events ++ trace) R o.ops := by
  obtain ⟨run, hr, hst⟩ := hu
  simp only [exec, hr] at h
  split_ifs at h
  · cases h
    exact .checking b ⟨{ run with prepNotify := false }, getElem?_modifyRun hr _, hst⟩ hd
  · cases h
    refine .failing ?_ ⟨run, hr, hst⟩ ?_ ?_ (.inr (.inl rfl))
    · simp [Off, onPath, isCast]
    · simpa [NoCommit] using hd.noCommit
    · simp [hd.unsent]

theorem settling_barrier (hu : Uncommitted inner R) (hs : Settling inner R (op :: rest))
    (h : exec env inner op = some o) (hop : onPath op ≠ some R) (hfinal : Final op) :
    Settling o.shared R (o.ops ++ rest) := by
  obtain ⟨run, hr, -⟩ := hu
  rcases hs with ⟨run', hr', hterm⟩ | hl | ⟨ops, verdict, hops, hl⟩
  · exact .inl (terminal_exec h hop hr' hterm)
  · cases hl
    simp only [exec, some.injEq] at h
    rcases withRun_cases inner R _ with ⟨hnone, -⟩ | ⟨run', -, he⟩
    · cases hnone.symm.trans hr
    · rw [← h, he, append_nil]
      exact .inr (.inr ⟨[.noteAbort R _, .stopRun R], .failed, by simp [Prompt, isPrompt], rfl⟩)
  · cases ops with
    | nil =>
      cases hl
      simp only [exec] at h
      obtain ⟨-, rfl⟩ := withState_some h hr
      by_cases hterm : run.state.isTerminal = true
      · rw [if_pos hterm]
        exact .inl ⟨run, hr, hterm⟩
      · rw [if_neg hterm]
        exact .inl ⟨run.finalize verdict env.now, getElem?_modifyRun hr _, hfinal⟩
    | cons op' ops =>
      cases hl
      obtain ⟨hfirst, hops⟩ := forall_mem_cons.1 hops
      refine .inr (.inr ⟨o.ops ++ ops, verdict, prompt_append (prompt_of_exec h hfirst) hops, ?_⟩)
      exact (append_assoc ..).symm

theorem casting_exec (hc : Casting R trace (op :: rest)) (h : exec env inner op = some o) :
    Casting R (o.events ++ trace) (o.ops ++ rest) := by
  generalize hl : op :: rest = q at hc
  cases hc with
  | starting t hn =>
    cases hl
    simp only [exec, some.injEq] at h
    rcases withRun_cases inner R _ with ⟨-, he⟩ | ⟨run, -, he⟩
    · rw [← h, he]
      exact .off off_nil
    · rw [← h, he, append_nil]
      exact .sending _ (forall_mem_map.2 fun _ _ => ⟨by simp [onPath], rfl⟩) hn
  | sending q hoff hn =>
    cases q with
    | nil =>
      cases hl
      cases h
      exact .off off_nil
    | cons op' q =>
      cases hl
      show Casting R _ (o.ops ++ (q ++ [.broadcastDone R]))
      rw [← append_assoc]
      exact .sending _ (off_exec h hoff) (not_broadcast_exec h (hoff op mem_cons_self).2 hn)
  | off hoff =>
    subst hl
    exact .off (off_exec h hoff)

theorem Casting.onPath_ne (h : Casting R trace q) : ∀ op ∈ q, onPath op ≠ some R := by
  cases h with
  | starting => exact forall_mem_singleton.2 nofun
  | sending q hoff =>
    exact forall_mem_append.2 ⟨fun op hop => (hoff op hop).1, forall_mem_singleton.2 nofun⟩
  | off hoff => exact fun op hop => (hoff op hop).1

theorem stage_barrier (hs : BarrierStage inner trace R (op :: rest))
    (h : exec env inner op = some o) (hfinal : Final op) :
    BarrierStage o.shared (o.events ++ trace) R (o.ops ++ rest) := by
  generalize hl : op :: rest = q at hs
  cases hs with
  | checking b hu hd =>
    cases hl
    rw [append_nil]
    exact stage_check h hu hd
  | parking b hu hd =>
    cases hl
    rw [append_nil]
    exact stage_park h hu hd
  | failing hoff hu hn hb hset =>
    subst hl
    obtain ⟨hop, hcast⟩ := hoff op mem_cons_self
    exact .failing (off_exec h hoff) (uncommitted_exec h hop hu) (noCommit_exec h hop hn)
      (not_broadcast_exec h hcast hb) (settling_barrier hu hset h hop hfinal)
  | committed t hcast hc ht =>
    subst hl
    have hop := hcast.onPath_ne op mem_cons_self
    exact .committed t (casting_exec hcast h) (committedAt_exec h hop hc)
      (not_timedOut_exec h hop ht)

/-! ## Every run has a stage -/

structure Life (s : State M) : Prop where
  verdicts : Verdicts s
  phased : ∀ (R : String) (run : ControllerRun M), s.shared.runs[R]? = some run → Phased run
  stage : ∀ R, Stage s.shared s.trace R (s.tasks (.submit R)) (s.tasks (.barrier R))
  others : ∀ R t, t ≠ .submit R → t ≠ .barrier R → Off R (s.tasks t)
  unminted : ∀ R, R ∉ s.shared.runIds →
    R ∉ s.shared.runs ∧ s.tasks (.submit R) = [] ∧ s.tasks (.barrier R) = []

theorem life_initial (liveness : ℕ) : Life (initial M liveness) where
  verdicts :=
    { ahead := fun t op hop => by
        rw [initial_tasks liveness t op hop]
        trivial
      recorded := fun R run hr => by cases hr }
  phased R run hr := by cases hr
  stage R := .absent (by simp [initial])
    ⟨by simp [initial, NoCommit], by simp [initial], by simp [initial]⟩
  others R t _ _ op hop := by
    rw [initial_tasks liveness t op hop]
    exact ⟨by simp [onPath], rfl⟩
  unminted R _ := ⟨by simp [initial], rfl, rfl⟩

section

theorem Life.off (h : Life s) (hprog : s.tasks t = op :: rest) (hs : t ≠ .submit R)
    (hb : t ≠ .barrier R) : onPath op ≠ some R ∧ isCast R op = false :=
  h.others R t hs hb op (by simp [hprog])

/-- What an operation on the path of a run says about its task and about the run. -/
def Placement (s : State M) (t : TaskId) (op : Op M) : Prop :=
  match op with
  | .reserveAgents sub | .insertRun sub _ =>
    t = .submit sub.runId ∧ s.tasks t = [op] ∧ sub.runId ∉ s.shared.runs
  | .spawnBarrier R _ => t = .submit R ∧ s.tasks (.barrier R) = []
  | .barrierCheck R _ | .barrierPark R _ => t = .barrier R ∧ s.tasks t = [op] ∧
      Uncommitted s.shared R ∧ NoCommit s.trace R ∧ .timedOut R ∉ s.trace
  | _ => True

theorem Life.placement (h : Life s) (hop : op ∈ s.tasks t) : Placement s t op := by
  cases hR : onPath op with
  | none => cases op <;> trivial
  | some R =>
    have hstage := h.stage R
    by_cases hs : t = .submit R
    · subst hs
      generalize hq : s.tasks (.barrier R) = q at hstage
      generalize hp : s.tasks (.submit R) = p at hstage hop
      cases hstage with
      | absent => cases hop
      | reserving sub hsub hnew | inserting sub _ hsub hnew =>
        obtain rfl := mem_singleton.1 hop
        subst hsub
        exact ⟨rfl, hp, hnew⟩
      | spawning ops b hops =>
        rcases mem_append.1 hop with hop | hop
        · exact absurd hR (hops.off _ hop).1
        · obtain rfl := mem_singleton.1 hop
          exact ⟨rfl, hq⟩
      | spawned hoff => exact absurd hR (hoff op hop).1
    · by_cases hb : t = .barrier R
      · subst hb
        generalize hq : s.tasks (.barrier R) = q at hstage hop
        generalize s.tasks (.submit R) = p at hstage
        cases hstage with
        | absent | reserving | inserting | spawning => cases hop
        | spawned _ hb =>
          cases hb with
          | checking _ hu hd | parking _ hu hd =>
            obtain rfl := mem_singleton.1 hop
            exact ⟨rfl, hq, hu, hd.noCommit, hd.timely⟩
          | failing hoff => exact absurd hR (hoff op hop).1
          | committed _ hcast => exact absurd hR (hcast.onPath_ne op hop)
      · exact absurd hR (h.others R t hs hb op hop).1

theorem Life.cast (h : Life s) (hop : op ∈ s.tasks t) (hc : isCast R op = true) :
    t = .barrier R ∧ .broadcast R ∉ s.trace ∧ ∃ q, s.tasks t = q ++ [op] ∧ Off R q := by
  have hne : ∀ {p}, Off R p → op ∉ p := fun hoff hop => by cases (hoff op hop).2.symm.trans hc
  have hstage := h.stage R
  by_cases hb : t = .barrier R
  · subst hb
    generalize s.tasks (.submit R) = p at hstage
    generalize s.tasks (.barrier R) = q at hstage hop ⊢
    cases hstage with
    | absent | reserving | inserting | spawning => cases hop
    | spawned _ hb =>
      cases hb with
      | checking | parking =>
        obtain rfl := mem_singleton.1 hop
        cases hc
      | failing hoff => cases hne hoff hop
      | committed _ hcast =>
        cases hcast with
        | starting t hn =>
          obtain rfl := mem_singleton.1 hop
          exact ⟨rfl, hn, [], rfl, off_nil⟩
        | sending q hoff hn =>
          obtain rfl := mem_singleton.1 ((mem_append.1 hop).resolve_left (hne hoff))
          exact ⟨rfl, hn, q, rfl, hoff⟩
        | off hoff => cases hne hoff hop
  · by_cases hs : t = .submit R
    · subst hs
      generalize s.tasks (.barrier R) = q at hstage
      generalize s.tasks (.submit R) = p at hstage hop
      cases hstage with
      | absent => cases hop
      | reserving | inserting =>
        obtain rfl := mem_singleton.1 hop
        cases hc
      | spawning ops b hops =>
        obtain rfl := mem_singleton.1 ((mem_append.1 hop).resolve_left (hne hops.off))
        cases hc
      | spawned hoff => cases hne hoff hop
    · cases hne (h.others R t hs hb) hop

section

variable (h : Life s) (hprog : s.tasks t = op :: rest)
include h hprog

theorem Life.head : Placement s t op := h.placement (hprog ▸ mem_cons_self)

theorem Life.stage_commit
    (hexec : exec env s.shared op = some o) (R : String) :
    Stage o.shared (o.events ++ s.trace) R ((s.commit t rest o).tasks (.submit R))
      ((s.commit t rest o).tasks (.barrier R)) := by
  have hsub : (s.commit t rest o).tasks (.submit R) =
      if .submit R = t then o.ops ++ rest else s.tasks (.submit R) :=
    commit_tasks_of_ne hexec (.submit R) fun _ => ⟨nofun, nofun⟩
  have hbar : (∃ b, op = .spawnBarrier R b ∧
        (s.commit t rest o).tasks (.barrier R) = [.barrierCheck R b]) ∨
      (∀ b, op ≠ .spawnBarrier R b) ∧ (s.commit t rest o).tasks (.barrier R) =
        if .barrier R = t then o.ops ++ rest else s.tasks (.barrier R) := by
    rcases commit_tasks hexec (.barrier R) with ⟨R', b, ht, hop, he⟩ | ⟨R', ht, -⟩ | ⟨hne, ht⟩
    · cases ht
      exact .inl ⟨b, hop, he⟩
    · cases ht
    · exact .inr ⟨fun b => hne R b rfl, ht⟩
  have hstage := h.stage R
  by_cases ht : t = .submit R
  · subst ht
    rw [hprog] at hstage
    rw [hsub, if_pos rfl]
    rcases stage_submit hstage hexec with ⟨b, rfl, hnew⟩ | ⟨hne, hnew⟩
    · rcases hbar with ⟨b', he, hbar⟩ | ⟨hne, -⟩
      · obtain rfl := (Op.spawnBarrier.inj he).2
        rw [hbar]
        exact hnew
      · cases hne b rfl
    · rcases hbar with ⟨b', he, -⟩ | ⟨-, hbar⟩
      · exact absurd he (hne b')
      · rw [hbar, if_neg nofun]
        exact hnew
  · rw [hsub, if_neg (Ne.symm ht)]
    rcases hbar with ⟨b, he, -⟩ | ⟨-, hbar⟩
    · subst he
      exact absurd (h.head hprog).1 ht
    · rw [hbar]
      by_cases hb : t = .barrier R
      · subst hb
        rw [hprog] at hstage
        rw [if_pos rfl]
        generalize s.tasks (.submit R) = p at hstage
        cases hstage with
        | spawned hoff hb => exact .spawned hoff (stage_barrier hb hexec (h.verdicts.head hprog))
      · rw [if_neg (Ne.symm hb)]
        obtain ⟨hop, hcast⟩ := h.off hprog ht hb
        exact (persists_exec hexec hop hcast).stage hstage

theorem Life.commit
    (hexec : exec env s.shared op = some o) : Life (s.commit t rest o) where
  verdicts := h.verdicts.step (.exec hprog hexec)
  phased := phased_exec hexec h.phased
  stage := h.stage_commit hprog hexec
  others R t' hs hb op' hop' := by
    rcases mem_commit hprog hexec hop' with ⟨hold, -⟩ | hbegins | ⟨rfl, hnew⟩
    · exact h.others R t' hs hb op' hold
    · exact hbegins.off hs hb
    · exact off_of_exec hexec (h.off hprog hs hb) op' hnew
  unminted R hR := by
    rw [show (s.commit t rest o).shared.runIds = s.shared.runIds from (exec_counters hexec).2] at hR
    obtain ⟨hruns, hsub, hbar⟩ := h.unminted R hR
    have hs : t ≠ .submit R := by
      rintro rfl
      cases hprog.symm.trans hsub
    have hb : t ≠ .barrier R := by
      rintro rfl
      cases hprog.symm.trans hbar
    refine ⟨not_mem_runs_exec hexec (h.off hprog hs hb).1 hruns, ?_, ?_⟩
    · rw [commit_tasks_of_ne hexec (.submit R) fun _ => ⟨nofun, nofun⟩, if_neg (Ne.symm hs), hsub]
    · rcases commit_tasks hexec (.barrier R) with ⟨R', b, ht, hop, -⟩ | ⟨R', ht, -⟩ | ⟨-, he⟩
      · cases ht
        subst hop
        exact absurd (h.head hprog).1 hs
      · cases ht
      · rw [he, if_neg (Ne.symm hb), hbar]

end

end

theorem Uncommitted.ne_committedAt {t : ℤ} (hu : Uncommitted inner R) : ¬ CommittedAt inner R t := by
  rintro ⟨run, hr, hst⟩
  obtain ⟨run', hr', hst'⟩ := hu
  cases hr'.symm.trans hr
  cases hst'.symm.trans hst

/-- What the stage says about the start of the run. -/
theorem Stage.commits (h : Stage inner trace R p q) :
    (∃ t, CommittedAt inner R t) ∧ (∀ op ∈ p ++ q, onPath op ≠ some R) ∧ .timedOut R ∉ trace ∨
      (∀ t, ¬ CommittedAt inner R t) ∧ NoCommit trace R ∧ .broadcast R ∉ trace ∧
        (R ∉ inner.runs → .timedOut R ∉ trace) := by
  cases h with
  | absent hR hd | reserving _ _ hR hd | inserting _ _ _ hR hd =>
    refine .inr ⟨?_, hd.noCommit, hd.unsent, fun _ => hd.timely⟩
    rintro t ⟨run, hr, -⟩
    cases (getElem?_eq_none hR).symm.trans hr
  | spawning _ _ _ hu hd =>
    exact .inr ⟨fun _ => hu.ne_committedAt, hd.noCommit, hd.unsent, fun _ => hd.timely⟩
  | spawned hoff hb =>
    cases hb with
    | checking _ hu hd | parking _ hu hd =>
      exact .inr ⟨fun _ => hu.ne_committedAt, hd.noCommit, hd.unsent, fun _ => hd.timely⟩
    | failing _ hu hn hb =>
      refine .inr ⟨fun _ => hu.ne_committedAt, hn, hb, fun hR => ?_⟩
      obtain ⟨run, hr, -⟩ := hu
      cases (getElem?_eq_none hR).symm.trans hr
    | committed t hcast hc ht =>
      exact .inl ⟨⟨t, hc⟩, forall_mem_append.2 ⟨fun op hop => (hoff op hop).1, hcast.onPath_ne⟩, ht⟩

theorem Stage.undecided (h : Stage inner trace R p q) (hR : R ∉ inner.runs) :
    Undecided trace R := by
  rcases h.commits with ⟨⟨t, run, hr, -⟩, -⟩ | ⟨-, hn, hb, ht⟩
  · cases (getElem?_eq_none hR).symm.trans hr
  · exact ⟨hn, ht hR, hb⟩

theorem Life.opens {act : Action M} (h : Life s) (hstep : Step s act s')
    (ho : Opens s act t op s') : Life s' where
  verdicts := h.verdicts.step hstep
  phased R run hr := h.phased R run (ho.runs ▸ hr)
  stage R := by
    rw [ho.tasks, ho.tasks, ho.trace, if_neg (ho.outside R).1]
    split_ifs with hR
    · obtain ⟨hruns, -, hbar⟩ := h.unminted R (ho.fresh R hR.symm).1
      have hd := (h.stage R).undecided hruns
      obtain ⟨sub, rfl, rfl⟩ := ho.begins.submits hR.symm
      rw [hbar]
      exact .reserving sub rfl (ho.runs ▸ hruns) hd
    · exact (persists_of_runs ho.runs).stage (h.stage R)
  others R t' hs hb op' hop' := by
    rcases ho.mem hop' with hold | ⟨rfl, rfl⟩
    · exact h.others R t' hs hb op' hold
    · exact ho.begins.off hs hb
  unminted R hR := by
    obtain ⟨hR, hne⟩ := not_or.1 (mt (ho.runIds R).2 hR)
    rw [ho.tasks, ho.tasks, if_neg (Ne.symm hne), if_neg (ho.outside R).1, ho.runs]
    exact h.unminted R hR

theorem Life.step {act : Action M} (h : Life s) (hstep : Step s act s') : Life s' := by
  rcases step_cases hstep with ⟨t, hprog, hexec, -⟩ | ⟨t, op, ho⟩
  · exact h.commit hprog hexec
  · exact h.opens hstep ho

theorem life_of_reachable : (machine M).Reachable s → Life s :=
  invariant_of_step life_initial fun _ => Life.step

/-! ## What the stage says -/

theorem Stage.of_committed {t : ℤ} (h : Stage inner trace R p q) (hc : CommittedAt inner R t) :
    (∀ op ∈ p ++ q, onPath op ≠ some R) ∧ .timedOut R ∉ trace := by
  rcases h.commits with ⟨-, hoff⟩ | ⟨hno, -⟩
  · exact hoff
  · cases hno t hc

theorem Stage.noCommit (h : Stage inner trace R p q) (hu : Uncommitted inner R) :
    NoCommit trace R := by
  rcases h.commits with ⟨⟨t, hc⟩, -⟩ | ⟨-, hn, -⟩
  · cases hu.ne_committedAt hc
  · exact hn

theorem Stage.committed_of_broadcast (h : Stage inner trace R p q) (hm : .broadcast R ∈ trace) :
    ∃ t, CommittedAt inner R t := by
  rcases h.commits with ⟨hc, -⟩ | ⟨-, -, hn, -⟩
  · exact hc
  · cases hn hm

theorem Stage.committedAt {t : ℤ} {state : RunState} {failure : Option (String × RunState)}
    {assigned : List String} (h : Stage inner trace R p q)
    (hm : .committed R t state failure assigned ∈ trace) : ∃ t, CommittedAt inner R t := by
  rcases h.commits with ⟨hc, -⟩ | ⟨-, hn, -⟩
  · exact hc
  · cases hn t state failure assigned hm

section

theorem Life.onPath_of_committed (h : Life s) {start : ℤ} (hc : CommittedAt s.shared R start)
    (hprog : s.tasks t = op :: rest) : onPath op ≠ some R := by
  obtain ⟨hne, -⟩ := (h.stage R).of_committed hc
  have hop : op ∈ s.tasks t := by simp [hprog]
  by_cases hs : t = .submit R
  · subst hs
    exact hne op (mem_append_left _ hop)
  · by_cases hb : t = .barrier R
    · subst hb
      exact hne op (mem_append_right _ hop)
    · exact (h.others R t hs hb op hop).1

theorem Life.run_of_exec (h : Life s) (hprog : s.tasks t = op :: rest)
    (hexec : exec env s.shared op = some o) (hr : s.shared.runs[R]? = some run) :
    o.shared.runs[R]? = some run ∨
      ∃ run', o.shared.runs[R]? = some run' ∧ RunEffect env R run op run' := by
  rcases exec_runs hexec R with he | ⟨run₀, run', hr₀, he, heff⟩ | ⟨sub, selected, rfl, rfl, -⟩
  · exact .inl (he.trans hr)
  · cases hr₀.symm.trans hr
    exact .inr ⟨run', he, heff⟩
  · cases (getElem?_eq_none (h.head hprog).2.2).symm.trans hr

end

end Controller

end Loadr
