import Loadr.Controller.Barrier
import Loadr.Controller.StateLock

/-!
# Settled runs stay settled

`Controller.Contributions` ties what is frozen to the log: the aggregator behind the summary has
been built from the deltas that were merged since the start commit (`authors`), by the agents on
`contributing`.

That the state only moves forward, and that `contributing` is about the aggregator of the run
proper, is due to agents that report nothing of a run before its start has been sent (`truthful`).
-/

namespace Loadr

open List Option

def RunState.rank : RunState → ℕ
  | .pending => 0
  | .running => 1
  | .stopping => 2
  | .finished | .aborted | .failed => 3

theorem RunState.rank_of_live {st : RunState} (h : st.isTerminal = false) : st.rank ≤ 2 := by
  cases st <;> simp_all [RunState.rank, RunState.isTerminal]

theorem RunState.rank_of_terminal {st : RunState} (h : st.isTerminal = true) : st.rank = 3 := by
  cases st <;> simp_all [RunState.rank, RunState.isTerminal]

namespace Controller

open Barrier

variable {M : Metering} {env : Env M} {inner : Inner M} {op : Op M} {o : Outcome M}
  {s s' : State M} {act : Action M} {R a : String} {run run' : ControllerRun M}

/-! ## What a summary is built from -/

/-- The aggregators that come about by merging deltas of these agents, the last one first. -/
inductive Aggregated : List String → M.Agg → Prop
  | new (now : ℕ) : Aggregated [] (M.new now)
  | merge {l : List String} {agg : M.Agg} (a name : String) (delta : M.Delta) :
    Aggregated l agg → Aggregated (a :: l) (M.mergeDelta agg (M.addAgentIdentity delta name a))
  | zero {l : List String} {agg : M.Agg} (a : String) :
    Aggregated l agg → Aggregated l (M.zeroLiveGauges agg a)
  | snapshot {l : List String} {agg : M.Agg} (now : ℕ) :
    Aggregated l agg → Aggregated l (M.snapshot agg now)

/-- The authors of the deltas merged into the run's aggregator since it was put in place. -/
def authors (R : String) : List Event → List String
  | [] => []
  | .merged rc R' :: l => if R' = R then rc.agentId :: authors R l else authors R l
  | .committed R' .. :: l => if R' = R then [] else authors R l
  | _ :: l => authors R l

/-- The aggregator that the summary was built from, or will be. -/
def summaryAgg (run : ControllerRun M) : M.Agg :=
  (run.mergedSummary.map MergedSummary.agg).getD run.agg

def isAuthoring (R : String) : Event → Bool
  | .merged _ R' | .committed R' .. => R' == R
  | _ => false

theorem authors_append {l trace : List Event} (h : ∀ e ∈ l, isAuthoring R e = false) :
    authors R (l ++ trace) = authors R trace := by
  induction l with
  | nil => rfl
  | cons e l ih =>
    obtain ⟨he, hl⟩ := forall_mem_cons.1 h
    have ih := ih hl
    cases e <;> simp only [isAuthoring, beq_eq_false_iff_ne, ne_eq, cons_append, authors,
      ih] at he ⊢
    case merged | committed => rw [if_neg he]

theorem authors_exec (h : exec env inner op = some o)
    (hmerge : ∀ rc delta, op ≠ .deltaMerge rc R delta)
    (hcommit : ∀ b run, op = .barrierCheck R b → inner.runs[R]? = some run → ¬MayStart run)
    (trace : List Event) : authors R (o.events ++ trace) = authors R trace := by
  refine authors_append fun e he => ?_
  by_contra ha
  rw [Bool.not_eq_false] at ha
  have hlogs := exec_events h e he
  cases e <;> simp only [isAuthoring, Bool.false_eq_true, beq_iff_eq] at ha
  case merged rc R' =>
    subst ha
    obtain ⟨delta, hop⟩ := hlogs
    exact hmerge rc delta hop
  case committed R' start state failure assigned =>
    subst ha
    obtain ⟨b, run, hop, hr, hmay, -⟩ := hlogs
    exact hcommit b run hop hr hmay

/-! ## The freeze -/

/-- A run is settled exactly when its summary is frozen. -/
def Frozen (s : State M) : Prop :=
  ∀ (R : String) (run : ControllerRun M), s.shared.runs[R]? = some run →
    run.state.isTerminal = run.mergedSummary.isSome

theorem RunEffect.frozen (h : RunEffect env R run op run')
    (hfinal : ∀ verdict, op = .finalize R verdict → verdict.isTerminal = true)
    (hf : run.state.isTerminal = run.mergedSummary.isSome) :
    run'.state.isTerminal = run'.mergedSummary.isSome := by
  cases h
  case finalize verdict _ _ => exact hfinal verdict rfl
  case eventStarted hp =>
    rw [hp] at hf
    exact hf
  case commitStart hlive _ _ | setStopping hlive => exact hlive.symm.trans hf
  all_goals exact hf

theorem frozen_of_reachable : (machine M).Reachable s → Frozen s := by
  refine invariant_of_step (fun liveness R run hr => ?_) fun hreach h₁ hstep R run' hr' => ?_
  · cases hr
  · rcases run_of_step hstep hr' with
      hr | ⟨t, hprog, -, ⟨run, hr, heff⟩ | ⟨sub, selected, -, -, rfl⟩⟩
    · exact h₁ R run' hr
    · refine heff.frozen (fun verdict hop => ?_) (h₁ R run hr)
      subst hop
      exact (life_of_reachable hreach).verdicts.head hprog
    · rfl

theorem RunEffect.summary_stable (h : RunEffect env R run op run')
    (hf : run.state.isTerminal = run.mergedSummary.isSome) {m : MergedSummary M}
    (hm : run.mergedSummary = some m) : run'.mergedSummary = some m := by
  have hterm : run.state.isTerminal = true := by
    rw [hf, hm]
    rfl
  cases h
  case finalize hlive => cases hlive.symm.trans hterm
  all_goals exact hm

theorem RunEffect.rank_mono (h : RunEffect env R run op run')
    (hfinal : ∀ verdict, op = .finalize R verdict → verdict.isTerminal = true)
    (hcommit : ∀ b, op = .barrierCheck R b → MayStart run → run.state = .pending) :
    run.state.rank ≤ run'.state.rank := by
  cases h
  case finalize verdict _ hlive =>
    show run.state.rank ≤ verdict.rank
    rw [RunState.rank_of_terminal (hfinal verdict rfl)]
    exact (RunState.rank_of_live hlive).trans (by decide)
  case eventStarted hp =>
    rw [hp]
    exact Nat.zero_le _
  case commitStart b hheld hlive hf hr =>
    rw [hcommit b rfl ⟨hheld, hlive, hf, hr⟩]
    exact Nat.zero_le _
  case setStopping hlive => exact RunState.rank_of_live hlive
  all_goals exact le_rfl

/-! ## Reports of runs that have started -/

/-- Steps in which no agent reports on a run whose start has not been sent. -/
def truthful (s : State M) (act : Action M) : Bool :=
  lawful s act && match act with
    | .step _ env =>
      match env.inbound with
      | .message { msg := .metrics R _, .. } => startSent s R
      | _ => true
    | _ => true

def deltaFor : Op M → Option String
  | .admitMessage _ _ { msg := .metrics R _, .. } | .applyAgentMessage _ (.metrics R _)
  | .deltaName _ R _ | .deltaState _ R _ | .deltaContributing _ R _ | .deltaMerge _ R _ => some R
  | _ => none

theorem deltaFor_of_exec (h : exec env inner op = some o) {op' : Op M} (hop' : op' ∈ o.ops)
    (hd : deltaFor op' = some R) : deltaFor op = some R ∨
      ∃ seq json, env.inbound = .message { seq := seq, msg := .metrics R json } := by
  have horigin := exec_ops h op' hop'
  cases op' <;> simp only [deltaFor, reduceCtorEq] at hd
  case admitMessage a k msg =>
    obtain ⟨seq, m⟩ := msg
    cases m <;> simp only [reduceCtorEq, some.injEq] at hd
    subst hd
    exact .inr ⟨seq, _, horigin.2⟩
  case applyAgentMessage rc m =>
    obtain ⟨⟨seq, m'⟩, rfl, rfl, -⟩ := horigin
    cases m' <;> simp only [reduceCtorEq, some.injEq] at hd
    subst hd
    exact .inl rfl
  all_goals obtain rfl := some.inj hd
  case deltaName =>
    obtain ⟨json, rfl, -⟩ := horigin
    exact .inl rfl
  case deltaState =>
    obtain ⟨delta', name, rfl, -⟩ := horigin
    exact .inl rfl
  case deltaContributing | deltaMerge =>
    obtain rfl := horigin
    exact .inl rfl

def Tagged : Op M → Prop
  | .deltaState rc _ delta | .deltaContributing rc _ delta | .deltaMerge rc _ delta =>
    ∃ d name, delta = M.addAgentIdentity d name rc.agentId
  | _ => True

theorem tagged_of_exec (h : exec env inner op = some o) (hop : Tagged op) :
    ∀ op' ∈ o.ops, Tagged op' := by
  intro op' hop'
  have horigin := exec_ops h op' hop'
  cases op' <;> try exact trivial
  case deltaState =>
    obtain ⟨d, name, -, he⟩ := horigin
    exact ⟨d, name, he⟩
  case deltaContributing | deltaMerge =>
    obtain rfl := horigin
    exact hop

/-- A delta of the agent is between the mark on `contributing` and the merge. -/
def Merging (s : State M) (R a : String) : Prop :=
  ∃ t rc delta, .deltaMerge rc R delta ∈ s.tasks t ∧ rc.agentId = a

structure Contributions (s : State M) : Prop where
  tagged : ∀ t, ∀ op ∈ s.tasks t, Tagged op
  begun : ∀ t, ∀ op ∈ s.tasks t, ∀ R, deltaFor op = some R → ∃ start, CommittedAt s.shared R start
  authored : ∀ R, authors R s.trace ≠ [] → ∃ start, CommittedAt s.shared R start
  contributing : ∀ (R : String) (run : ControllerRun M), s.shared.runs[R]? = some run →
    ∀ a, a ∈ run.contributing ↔ a ∈ authors R s.trace ∨ Merging s R a
  aggregated : ∀ (R : String) (run : ControllerRun M), s.shared.runs[R]? = some run →
    Aggregated (authors R s.trace) (summaryAgg run)

/-! ## One step -/

/-- What an operation does to the metrics of a run and to the list of their authors. -/
inductive MetricsEffect (env : Env M) (R : String) (run : ControllerRun M) (l : List String) :
    Op M → ControllerRun M → List String → Prop
  | marked (rc : Received) (delta : M.Delta) :
    MetricsEffect env R run l (.deltaContributing rc R delta)
      { run with contributing := insert rc.agentId run.contributing } l
  | merged (rc : Received) (delta : M.Delta) :
    MetricsEffect env R run l (.deltaMerge rc R delta)
      { run with agg := M.mergeDelta run.agg delta } (rc.agentId :: l)
  | committed (b : ℕ) : MayStart run →
    MetricsEffect env R run l (.barrierCheck R b) (run.commitStart (env.now + b) env.now) []
  | other {op : Op M} {run' : ControllerRun M} : (∀ rc delta, op ≠ .deltaContributing rc R delta) →
    (∀ rc delta, op ≠ .deltaMerge rc R delta) → run'.contributing = run.contributing →
    (∀ l, Aggregated l (summaryAgg run) → Aggregated l (summaryAgg run')) →
    MetricsEffect env R run l op run' l

theorem summary_of_live (hf : run.state.isTerminal = run.mergedSummary.isSome)
    (hlive : run.state.isTerminal = false) : run.mergedSummary = none := by
  rw [← not_isSome_iff_eq_none, ← hf, hlive]
  exact Bool.false_ne_true

theorem summaryAgg_of_none (h : run.mergedSummary = none) : summaryAgg run = run.agg := by
  unfold summaryAgg
  rw [h]
  rfl

/-- Apart from a merge and the start commit, the aggregator behind the summary is rolled or has
gauges set to zero, as long as the summary is not frozen. -/
theorem RunEffect.metrics (h : RunEffect env R run op run')
    (hf : run.state.isTerminal = run.mergedSummary.isSome)
    (hmark : ∀ rc delta, op ≠ .deltaContributing rc R delta)
    (hmerge : ∀ rc delta, op ≠ .deltaMerge rc R delta)
    (hcommit : ∀ b, op = .barrierCheck R b → ¬MayStart run) :
    run'.contributing = run.contributing ∧
      ∀ l, Aggregated l (summaryAgg run) → Aggregated l (summaryAgg run') := by
  cases h
  case deltaContributing rc delta => cases hmark rc delta rfl
  case deltaMerge rc delta => cases hmerge rc delta rfl
  case commitStart b hheld hlive hf hr => cases hcommit b rfl ⟨hheld, hlive, hf, hr⟩
  case zeroLiveGauges a =>
    refine ⟨rfl, fun l hagg => ?_⟩
    unfold summaryAgg at hagg ⊢
    dsimp only
    cases hm : run.mergedSummary with
    | none =>
      rw [hm] at hagg
      exact hagg.zero a
    | some m =>
      rw [hm] at hagg
      exact hagg
  case finalize hlive =>
    refine ⟨rfl, fun l hagg => ?_⟩
    rwa [summaryAgg_of_none (summary_of_live hf hlive)] at hagg
  case publishLiveSnapshot hlive =>
    have hnone := summary_of_live hf hlive
    have hnone' : (run.publishLiveSnapshot env.now).mergedSummary = none := hnone
    rw [summaryAgg_of_none hnone, summaryAgg_of_none hnone']
    exact ⟨rfl, fun l hagg => hagg.snapshot env.now⟩
  all_goals exact ⟨rfl, fun _ h => h⟩

theorem metricsEffect_of_exec (hexec : exec env inner op = some o)
    (hr : inner.runs[R]? = some run) (hr' : o.shared.runs[R]? = some run')
    (heff : run' = run ∨ RunEffect env R run op run')
    (hf : run.state.isTerminal = run.mergedSummary.isSome) (trace : List Event) :
    MetricsEffect env R run (authors R trace) op run' (authors R (o.events ++ trace)) := by
  by_cases hmark : ∃ rc delta, op = .deltaContributing rc R delta
  · obtain ⟨rc, delta, rfl⟩ := hmark
    cases hexec
    rw [getElem?_modifyRun_self, hr] at hr'
    cases hr'
    exact .marked rc delta
  by_cases hmerge : ∃ rc delta, op = .deltaMerge rc R delta
  · obtain ⟨rc, delta, rfl⟩ := hmerge
    cases hexec
    rw [getElem?_modifyRun_self, hr] at hr'
    cases hr'
    have hauthors : authors R ([.merged rc R] ++ trace) = rc.agentId :: authors R trace :=
      if_pos rfl
    rw [hauthors]
    exact .merged rc delta
  by_cases hcommit : (∃ b, op = .barrierCheck R b) ∧ MayStart run
  · obtain ⟨⟨b, rfl⟩, hmay⟩ := hcommit
    obtain ⟨he, hevents, -⟩ := exec_commit hexec hr hmay
    cases he.symm.trans hr'
    have hauthors : authors R (o.events ++ trace) = [] := by
      rw [hevents]
      exact if_pos rfl
    rw [hauthors]
    exact .committed b hmay
  have hmark' : ∀ rc delta, op ≠ .deltaContributing rc R delta :=
    fun rc delta hop => hmark ⟨rc, delta, hop⟩
  have hmerge' : ∀ rc delta, op ≠ .deltaMerge rc R delta :=
    fun rc delta hop => hmerge ⟨rc, delta, hop⟩
  have hcommit' : ∀ b, op = .barrierCheck R b → ¬MayStart run :=
    fun b hop hmay => hcommit ⟨⟨b, hop⟩, hmay⟩
  have hauthors : authors R (o.events ++ trace) = authors R trace := by
    refine authors_exec hexec hmerge' (fun b run₀ hop hr₀ => ?_) trace
    cases hr₀.symm.trans hr
    exact hcommit' b hop
  rw [hauthors]
  rcases heff with rfl | heff
  · exact .other hmark' hmerge' rfl fun _ h => h
  · obtain ⟨hsame, hagg⟩ := heff.metrics hf hmark' hmerge' hcommit'
    exact .other hmark' hmerge' hsame hagg

section

variable {t : TaskId} {rest : List (Op M)} (hprog : s.tasks t = op :: rest)
  (hexec : exec env s.shared op = some o)

include hprog hexec

theorem committed_stable (hs : Startable s) :
    (∃ start, CommittedAt s.shared R start) → ∃ start, CommittedAt o.shared R start :=
  fun ⟨start, hc⟩ => ⟨start, hs.committedAt_stable hprog hexec hc⟩

theorem delta_stays (hsess : Sessions s) {t' : TaskId} {op' : Op M}
    (hop' : op' ∈ s.tasks t') (hd : isDelta op' = true) :
    op' = op ∨ op' ∈ (s.commit t rest o).tasks t' := by
  obtain ⟨k, rfl⟩ := hsess.delta hop' hd
  rw [commit_tasks_session hexec k]
  split_ifs with ht
  · subst ht
    rw [hprog] at hop'
    exact (mem_cons.1 hop').imp_right (mem_append_right _)
  · exact .inr hop'

theorem merging_stays (hsess : Sessions s) (h : Merging s R a)
    (hop : ∀ rc delta, op = .deltaMerge rc R delta → rc.agentId ≠ a) :
    Merging (s.commit t rest o) R a := by
  obtain ⟨t', rc, delta, hmem, ha⟩ := h
  rcases delta_stays hprog hexec hsess hmem rfl with he | hmem
  · exact absurd ha (hop rc delta he.symm)
  · exact ⟨t', rc, delta, hmem, ha⟩

theorem merging_cases (h : Merging (s.commit t rest o) R a) :
    Merging s R a ∨ ∃ rc delta, op = .deltaContributing rc R delta ∧ rc.agentId = a := by
  obtain ⟨t', rc, delta, hmem, ha⟩ := h
  rcases mem_commit hprog hexec hmem with ⟨hold, -⟩ | hfirst | ⟨rfl, hnew⟩
  · exact .inl ⟨t', rc, delta, hold, ha⟩
  · cases hfirst.isFirst
  · have hop : op = .deltaContributing rc R delta := exec_ops hexec _ hnew
    exact .inr ⟨rc, delta, hop, ha⟩

variable (h : Contributions s)

include h

theorem Contributions.tagged_exec (t' : TaskId) :
    ∀ op' ∈ (s.commit t rest o).tasks t', Tagged op' := by
  intro op' hop'
  rcases mem_commit hprog hexec hop' with ⟨hold, -⟩ | hfirst | ⟨rfl, hnew⟩
  · exact h.tagged t' op' hold
  · have := hfirst.isFirst
    cases op' <;> trivial
  · exact tagged_of_exec hexec (h.tagged t' op (hprog ▸ mem_cons_self)) op' hnew

omit hprog hexec in
theorem Contributions.none_of_uncommitted (hr : s.shared.runs[R]? = some run)
    (hst : run.startUnixMs = none) : authors R s.trace = [] ∧ ∀ a, ¬Merging s R a := by
  have huncommitted : ¬∃ start, CommittedAt s.shared R start := by
    rintro ⟨start, run₀, hr₀, hst₀⟩
    cases hr₀.symm.trans hr
    cases hst.symm.trans hst₀
  refine ⟨by_contra fun hne => huncommitted (h.authored R hne), ?_⟩
  rintro a ⟨t', rc, delta, hmem, -⟩
  exact huncommitted (h.begun t' _ hmem R rfl)

theorem Contributions.begun_exec (hs : Startable s) (hguard : truthful s (.step t env) = true)
    (t' : TaskId) : ∀ op' ∈ (s.commit t rest o).tasks t', ∀ R, deltaFor op' = some R →
      ∃ start, CommittedAt o.shared R start := by
  intro op' hop' R hd
  have hstable := committed_stable hprog hexec hs (R := R)
  rcases mem_commit hprog hexec hop' with ⟨hold, -⟩ | hfirst | ⟨rfl, hnew⟩
  · exact hstable (h.begun t' op' hold R hd)
  · have := hfirst.isFirst
    cases op' <;> simp [isFirst, deltaFor] at this hd
  · rcases deltaFor_of_exec hexec hnew hd with hd | ⟨seq, json, hin⟩
    · exact hstable (h.begun _ op (hprog ▸ mem_cons_self) R hd)
    · simp only [truthful, hin, Bool.and_eq_true] at hguard
      obtain ⟨k, start, hm⟩ := startSent_iff.1 hguard.2
      exact hstable (hs.committedAt_of_sent hm)

theorem Contributions.authored_exec (hs : Startable s)
    (hne : authors R (o.events ++ s.trace) ≠ []) : ∃ start, CommittedAt o.shared R start := by
  have hstable := committed_stable hprog hexec hs (R := R)
  by_cases hmerge : ∃ rc delta, op = .deltaMerge rc R delta
  · obtain ⟨rc, delta, rfl⟩ := hmerge
    exact hstable (h.begun t _ (hprog ▸ mem_cons_self) R rfl)
  by_cases hcommit : ∃ b run, op = .barrierCheck R b ∧ s.shared.runs[R]? = some run ∧ MayStart run
  · obtain ⟨b, run, rfl, hr, hmay⟩ := hcommit
    exact ⟨_, _, (exec_commit hexec hr hmay).1, rfl⟩
  · refine hstable (h.authored R ?_)
    rwa [authors_exec hexec (fun rc delta hop => hmerge ⟨rc, delta, hop⟩)
      fun b run hop hr hmay => hcommit ⟨b, run, hop, hr, hmay⟩] at hne

theorem Contributions.contributing_exec (hs : Startable s) (hsess : Sessions s)
    (hr : s.shared.runs[R]? = some run)
    (heff : MetricsEffect env R run (authors R s.trace) op run' (authors R (o.events ++ s.trace)))
    (a : String) : a ∈ run'.contributing ↔
      a ∈ authors R (o.events ++ s.trace) ∨ Merging (s.commit t rest o) R a := by
  have hold := h.contributing R run hr a
  generalize authors R (o.events ++ s.trace) = l' at heff ⊢
  cases heff with
  | marked rc delta =>
    have hnew : Merging (s.commit t rest o) R a ↔ a = rc.agentId ∨ Merging s R a := by
      constructor
      · intro hm
        rcases merging_cases hprog hexec hm with hm | ⟨rc', delta', hop, ha⟩
        · exact .inr hm
        · cases hop
          exact .inl ha.symm
      · rintro (rfl | hm)
        · obtain ⟨k, rfl⟩ := hsess.delta (hprog ▸ mem_cons_self) rfl
          obtain rfl := some.inj hexec
          refine ⟨.session k, rc, delta, ?_, rfl⟩
          rw [commit_tasks_session hexec k, if_pos rfl]
          exact mem_cons_self
        · exact merging_stays hprog hexec hsess hm nofun
    rw [hnew, Finset.mem_insert, hold]
    exact or_left_comm
  | merged rc delta =>
    have hnew : a = rc.agentId ∨ Merging (s.commit t rest o) R a ↔ Merging s R a := by
      constructor
      · rintro (rfl | hm)
        · exact ⟨t, rc, delta, hprog ▸ mem_cons_self, rfl⟩
        · exact (merging_cases hprog hexec hm).resolve_right nofun
      · intro hm
        by_cases ha : a = rc.agentId
        · exact .inl ha
        · refine .inr (merging_stays hprog hexec hsess hm fun rc' delta' hop he => ha ?_)
          cases hop
          exact he.symm
    rw [hold, ← hnew, mem_cons]
    exact or_left_comm.trans or_assoc.symm
  | committed b hmay =>
    obtain ⟨hst, -⟩ := hs.pending_of_mayStart hprog hr hmay
    obtain ⟨hnil, hnone⟩ := h.none_of_uncommitted hr hst
    rw [hnil] at hold
    have hnew : ¬Merging (s.commit t rest o) R a := fun hm =>
      hnone a ((merging_cases hprog hexec hm).resolve_right nofun)
    have hout : a ∉ run.contributing := fun ha => (hold.1 ha).elim not_mem_nil (hnone a)
    exact iff_of_false hout (not_or.2 ⟨not_mem_nil, hnew⟩)
  | other hmark hmerge he _ =>
    have hnew : Merging (s.commit t rest o) R a ↔ Merging s R a := by
      constructor
      · intro hm
        refine (merging_cases hprog hexec hm).resolve_right ?_
        rintro ⟨rc, delta, hop, -⟩
        exact hmark rc delta hop
      · exact fun hm => merging_stays hprog hexec hsess hm
          fun rc delta hop => absurd hop (hmerge rc delta)
    rw [he, hnew, hold]

theorem Contributions.aggregated_exec (hlocks : StateLocks s)
    (hf : run.state.isTerminal = run.mergedSummary.isSome) (hr : s.shared.runs[R]? = some run)
    (heff : MetricsEffect env R run (authors R s.trace) op run' (authors R (o.events ++ s.trace))) :
    Aggregated (authors R (o.events ++ s.trace)) (summaryAgg run') := by
  have hold := h.aggregated R run hr
  generalize authors R (o.events ++ s.trace) = l' at heff ⊢
  cases heff with
  | marked rc delta => exact hold
  | merged rc delta =>
    -- the merge is under the state lock, so the summary is not frozen
    have hhead : Op.deltaMerge rc R delta ∈ s.tasks t := hprog ▸ mem_cons_self
    have hheld := (hlocks.lock R run hr).held_of_mem hhead (beq_self_eq_true R)
    have hnone := summary_of_live hf (hlocks.live R run hr hheld)
    have hnone' : { run with agg := M.mergeDelta run.agg delta }.mergedSummary = none := hnone
    obtain ⟨d, name, rfl⟩ := h.tagged t _ (hprog ▸ mem_cons_self)
    rw [summaryAgg_of_none hnone] at hold
    rw [summaryAgg_of_none hnone']
    exact hold.merge rc.agentId name d
  | committed b hmay =>
    have hnone := summary_of_live hf hmay.live
    have hnone' : (run.commitStart (env.now + b) env.now).mergedSummary = none := hnone
    rw [summaryAgg_of_none hnone']
    exact .new env.now
  | other _ _ _ hagg => exact hagg _ hold

theorem Contributions.exec_step (hs : Startable s) (hsess : Sessions s)
    (hlocks : StateLocks s) (hf : Frozen s) (hguard : truthful s (.step t env) = true) :
    Contributions (s.commit t rest o) := by
  have heff : ∀ {R run run'}, s.shared.runs[R]? = some run →
      o.shared.runs[R]? = some run' →
      MetricsEffect env R run (authors R s.trace) op run' (authors R (o.events ++ s.trace)) := by
    intro R run run' hr hr'
    refine metricsEffect_of_exec hexec hr hr' ?_ (hf R run hr) s.trace
    rcases hs.run_cases hprog hexec hr with he | ⟨run₁, he, heff⟩
    · exact .inl (some.inj (hr'.symm.trans he))
    · cases hr'.symm.trans he
      exact .inr heff
  -- a run that is inserted has no history
  have hinserted : ∀ {R : String} {run' : ControllerRun M}, s.shared.runs[R]? = none →
      o.shared.runs[R]? = some run' → ∃ sub selected, op = .insertRun sub selected ∧
        run' = .submitted sub (selected.map (·.1)) env.now ∧
        authors R (o.events ++ s.trace) = [] ∧ ∀ a, ¬Merging (s.commit t rest o) R a := by
    intro R run' hr hr'
    have huncommitted : ¬∃ start, CommittedAt s.shared R start := by
      rintro ⟨start, run₀, hr₀, -⟩
      cases hr.symm.trans hr₀
    obtain ⟨sub, selected, rfl, hrun⟩ := exec_new_run hexec hr hr'
    refine ⟨sub, selected, rfl, hrun, ?_, fun a hm => ?_⟩
    · have hsame : authors R (o.events ++ s.trace) = authors R s.trace :=
        authors_exec hexec (fun _ _ => nofun) (fun _ _ => nofun) s.trace
      rw [hsame]
      exact by_contra fun hne => huncommitted (h.authored R hne)
    · obtain ⟨t', rc, delta, hmem, -⟩ := (merging_cases hprog hexec hm).resolve_right nofun
      exact huncommitted (h.begun t' _ hmem R rfl)
  refine ⟨h.tagged_exec hprog hexec, h.begun_exec hprog hexec hs hguard,
    fun R => h.authored_exec hprog hexec hs, fun R run' hr' a => ?_, fun R run' hr' => ?_⟩
  · cases hr : s.shared.runs[R]? with
    | some run => exact h.contributing_exec hprog hexec hs hsess hr (heff hr hr') a
    | none =>
      obtain ⟨sub, selected, -, rfl, hnil, hnone⟩ := hinserted hr hr'
      refine iff_of_false (Finset.notMem_empty a) (not_or.2 ⟨?_, hnone a⟩)
      rw [show (s.commit t rest o).trace = o.events ++ s.trace from rfl, hnil]
      exact not_mem_nil
  · cases hr : s.shared.runs[R]? with
    | some run => exact h.aggregated_exec hprog hexec hlocks (hf R run hr) hr (heff hr hr')
    | none =>
      obtain ⟨sub, selected, -, rfl, hnil, -⟩ := hinserted hr hr'
      rw [show (s.commit t rest o).trace = o.events ++ s.trace from rfl, hnil]
      exact .new env.now

end

theorem Contributions.opens {act : Action M} {t : TaskId} (h : Contributions s)
    (ho : Opens s act t op s') (hidle : s.tasks t = []) : Contributions s' := by
  have hcommitted : ∀ {R}, (∃ start, CommittedAt s.shared R start) →
      ∃ start, CommittedAt s'.shared R start := by
    rintro R ⟨start, run, hr, hst⟩
    exact ⟨start, run, ho.runs ▸ hr, hst⟩
  have hmerging : ∀ R a, Merging s' R a ↔ Merging s R a := by
    refine fun R a => exists_congr fun t' => exists_congr fun rc => exists_congr fun delta =>
      and_congr_left fun _ => ⟨fun hmem => ?_, ho.ahead hidle⟩
    refine (ho.mem hmem).resolve_right ?_
    rintro ⟨-, rfl⟩
    exact ho.begins.elim
  refine ⟨fun t' op' hop' => ?_, fun t' op' hop' R hd => ?_, fun R hne => ?_, fun R run hr a => ?_,
    fun R run hr => ?_⟩
  · rcases ho.mem hop' with hold | ⟨-, rfl⟩
    · exact h.tagged t' op' hold
    · cases op' <;> first | trivial | exact ho.begins.elim
  · rcases ho.mem hop' with hold | ⟨-, rfl⟩
    · exact hcommitted (h.begun t' op' hold R hd)
    · cases op' <;> first | exact ho.begins.elim | cases hd
  · exact hcommitted (h.authored R (ho.trace ▸ hne))
  · rw [hmerging, ho.trace]
    exact h.contributing R run (ho.runs ▸ hr) a
  · exact ho.trace ▸ h.aggregated R run (ho.runs ▸ hr)

theorem contributions_of_reachable
    (h : ((machine M).guarded fun s act => truthful s act = true).Reachable s) :
    Contributions s := by
  refine guarded_invariant (fun liveness => ?_) (fun {s act s'} hreach hguard h₁ hstep => ?_) h
  · have hfirst := @initial_tasks M liveness
    refine ⟨fun t op hop => ?_, fun t op hop R hd => ?_, fun R => ?_, fun R run hr => ?_,
      fun R run hr => ?_⟩
    · rw [hfirst t op hop]
      trivial
    · rw [hfirst t op hop] at hd
      cases hd
    · exact fun hne => absurd rfl hne
    · cases hr
    · cases hr
  · have hfree := hreach.of_guarded
    have hs := startable_of_reachable
      (hreach.guarded_mono fun s act h => (Bool.and_eq_true_iff.1 h).1)
    rcases step_cases hstep with ⟨t, hprog, hexec, -⟩ | ⟨t, op, ho⟩
    · exact h₁.exec_step hprog hexec hs (sessions_of_reachable hfree)
        (stateLocks_of_reachable hfree) (frozen_of_reachable hfree) hguard
    · exact h₁.opens ho (ho.idle_of_reachable hfree)

/-! ## Settled runs stay settled -/

def writes (R : String) (trace : List Event) : ℕ :=
  trace.countP fun
    | .finalized R' _ => R' == R
    | _ => false

structure Finality (s : State M) (R : String) (run : ControllerRun M) : Prop where
  settled : run.state.isTerminal = true ↔ run.mergedSummary.isSome = true
  once : writes R s.trace = if run.mergedSummary.isSome then 1 else 0
  contributing : run.stateHeld = false → ∀ a, a ∈ run.contributing ↔ a ∈ authors R s.trace
  aggregated : Aggregated (authors R s.trace) (summaryAgg run)

structure Onward (run run' : ControllerRun M) : Prop where
  forward : run.state.rank ≤ run'.state.rank
  terminal : run.state.isTerminal = true → run'.state = run.state
  summary : ∀ m, run.mergedSummary = some m → run'.mergedSummary = some m

theorem Onward.refl (run : ControllerRun M) : Onward run run :=
  ⟨le_rfl, fun _ => rfl, fun _ hm => hm⟩

theorem Onward.trans {run'' : ControllerRun M} (h : Onward run run') (h' : Onward run' run'') :
    Onward run run'' where
  forward := h.forward.trans h'.forward
  terminal ht := by
    have hst := h.terminal ht
    rw [h'.terminal (hst ▸ ht), hst]
  summary m hm := h'.summary m (h.summary m hm)

theorem Onward.step (hs : Startable s) (hf : Frozen s) (hstep : Step s act s')
    (hr : s.shared.runs[R]? = some run) :
    ∃ run', s'.shared.runs[R]? = some run' ∧ Onward run run' := by
  obtain ⟨run', hr', rfl | ⟨t, hprog, -, heff⟩⟩ := hs.life.run_of_step hstep hr
  · exact ⟨run', hr', .refl run'⟩
  · refine ⟨run', hr', heff.rank_mono (fun verdict hop => ?_) (fun b hop hmay => ?_),
      heff.terminal_stable, fun m => heff.summary_stable (hf R run hr)⟩
    · subst hop
      exact hs.life.verdicts.head hprog
    · subst hop
      exact (hs.pending_of_mayStart hprog hr hmay).2

theorem writes_append (R : String) (l trace : List Event) :
    writes R (l ++ trace) = writes R l + writes R trace := countP_append

theorem writes_exec (hexec : exec env inner op = some o)
    (h : ∀ verdict, op ≠ .finalize R verdict) : writes R o.events = 0 := by
  refine countP_eq_zero.2 fun e he => ?_
  have hlogs := exec_events hexec e he
  cases e <;> simp only [Bool.false_eq_true, not_false_eq_true]
  case finalized R' verdict =>
    intro hR
    obtain rfl := beq_iff_eq.1 hR
    exact h verdict hlogs

theorem exec_finalize {verdict : RunState} (hexec : exec env inner (.finalize R verdict) = some o)
    (hr : inner.runs[R]? = some run) :
    (run.state.isTerminal = true ∧ o.shared.runs[R]? = some run ∧ o.events = []) ∨
      run.state.isTerminal = false ∧
        o.shared.runs[R]? = some (run.finalize verdict env.now) ∧
        o.events = [.finalized R verdict] := by
  obtain ⟨-, rfl⟩ := withState_some hexec hr
  split_ifs with ht
  · exact .inl ⟨ht, hr, rfl⟩
  · exact .inr ⟨Bool.eq_false_iff.2 ht, getElem?_modifyRun hr _, rfl⟩

/-- The log has one write of every frozen summary, and none of another run. -/
def WrittenOnce (s : State M) : Prop :=
  ∀ R, writes R s.trace = match s.shared.runs[R]? with
    | some run => if run.mergedSummary.isSome then 1 else 0
    | none => 0

theorem WrittenOnce.exec_step (h : WrittenOnce s) (hlife : Life s) (hf : Frozen s) {t : TaskId}
    {rest : List (Op M)} (hprog : s.tasks t = op :: rest)
    (hexec : exec env s.shared op = some o) : WrittenOnce (s.commit t rest o) := by
  intro R
  have hold := h R
  show writes R (o.events ++ s.trace) = match o.shared.runs[R]? with
    | some run => if run.mergedSummary.isSome then 1 else 0
    | none => 0
  rw [writes_append, hold]
  by_cases hfinal : ∃ verdict, op = .finalize R verdict
  · obtain ⟨verdict, rfl⟩ := hfinal
    cases hr : s.shared.runs[R]? with
    | none =>
      rcases withState_cases hexec with ⟨-, rfl⟩ | ⟨run, hr', -⟩
      · rw [hr]
        rfl
      · cases hr.symm.trans hr'
    | some run =>
      rcases exec_finalize hexec hr with ⟨-, he, hevents⟩ | ⟨hlive, he, hevents⟩
      · rw [he, hevents]
        exact Nat.zero_add _
      · rw [he, hevents]
        simp [writes, ControllerRun.finalize, summary_of_live (hf R run hr) hlive]
  · rw [writes_exec hexec fun verdict hop => hfinal ⟨verdict, hop⟩, Nat.zero_add]
    have hsummary : ∀ {run run'}, RunEffect env R run op run' →
        run'.mergedSummary = run.mergedSummary := by
      intro run run' heff
      cases heff
      case finalize verdict _ _ => cases hfinal ⟨verdict, rfl⟩
      all_goals rfl
    rcases exec_runs hexec R with he | ⟨run, run', hr, he, heff⟩ | ⟨sub, selected, rfl, rfl, he⟩
    · rw [he]
    · rw [hr, he]
      simp only [hsummary heff]
    · rw [he, Std.ExtTreeMap.getElem?_eq_none (hlife.head hprog).2.2]
      rfl

theorem writtenOnce_of_reachable : (machine M).Reachable s → WrittenOnce s := by
  refine invariant_of_step (fun liveness R => ?_) fun hreach h₁ hstep => ?_
  · simp [initial, writes]
  · cases hstep with
    | exec hprog hexec =>
      exact h₁.exec_step (life_of_reachable hreach) (frozen_of_reachable hreach) hprog hexec
    | connect | submit | control => exact h₁

theorem finality_of_reachable
    (h : ((machine M).guarded fun s act => truthful s act = true).Reachable s)
    (hr : s.shared.runs[R]? = some run) : Finality s R run := by
  have hcontributions := contributions_of_reachable h
  refine ⟨?_, ?_, fun hheld a => ?_, hcontributions.aggregated R run hr⟩
  · rw [frozen_of_reachable h.of_guarded R run hr]
  · rw [writtenOnce_of_reachable h.of_guarded R, hr]
  · rw [hcontributions.contributing R run hr a]
    refine or_iff_left ?_
    rintro ⟨t, rc, delta, hmem, -⟩
    have hlock := (stateLocks_of_reachable h.of_guarded).lock R run hr
    cases hheld.symm.trans (hlock.held_of_mem hmem (beq_self_eq_true R))

/-! ## Agents that report too early -/

instance : DecidableEq listing.Agg := inferInstanceAs (DecidableEq (List ℕ))

def assignedRun : List (Action listing) := List.flatten
  [[.connect (registration "a" "")], steps (.session 1) 1, [.submit submission],
    steps (.submit "r") 4]

/-- The agent reports `started` nevertheless, and a caller stops the run. -/
def stoppedEarly : List (Action listing) := List.flatten
  [assignedRun,
    [inbound 1 1 (.event { runId := "r", kind := .started, detail := "" })], steps (.session 1) 4,
    [.control 0 { runId := "r", action := .stop, scenario := "", vusTotal := none }],
    steps (.control 0) 6,
    [inbound 1 2 (.controlAck
      { runId := "r", commandId := 1, action := .stop, scenario := "", value := 0, applied := true
        detail := "" })],
    steps (.session 1) 3, steps (.control 0) 4,
    [inbound 1 3 (.assignmentReady "r" 0)], steps (.session 1) 4]

/-- A delta is merged before the start, and the run finishes without another. -/
def mergedEarly : List (Action listing) := List.flatten
  [assignedRun, [inbound 1 1 (.metrics "r" 7)], steps (.session 1) 10,
    [inbound 1 2 (.assignmentReady "r" 0)], steps (.session 1) 5, steps (.barrier "r") 1,
    [inbound 1 3 (.event { runId := "r", kind := .finished, detail := "" })],
    steps (.session 1) 9]

/-- Without trust in what agents say, a run goes from `Stopping` back to `Running`, and an agent is
on `contributing` of a settled run whose summary has nothing of it. -/
theorem early_reports :
    (∃ s s', (machine listing).Reachable s ∧ next s (.step (.barrier "r") {}) = some s' ∧
      s.shared.runs["r"]?.map ControllerRun.state = some .stopping ∧
      s'.shared.runs["r"]?.map ControllerRun.state = some .running) ∧
    ∃ s, (machine listing).Reachable s ∧ ∃ run ∈ s.shared.runs["r"]?, run.stateHeld = false ∧
      run.state = .finished ∧ "a" ∈ run.contributing ∧ authors "r" s.trace = [] ∧
      run.mergedSummary.map MergedSummary.agg = some (listing.new 0) := by
  constructor
  · obtain ⟨s, hs, hstop, hrun⟩ := (machine listing).exists_reachable_of_run (initialized 3)
      stoppedEarly (fun s => s.shared.runs["r"]?.map ControllerRun.state = some .stopping ∧
        (next s (.step (.barrier "r") {})).map (fun s' =>
          s'.shared.runs["r"]?.map ControllerRun.state) = some (some .running))
      (by decide +kernel)
    obtain ⟨s', hs', hrun⟩ := map_eq_some_iff.1 hrun
    exact ⟨s, s', hs, hs', hstop, hrun⟩
  · exact (machine listing).exists_reachable_of_run (initialized 3) mergedEarly _ (by decide +kernel)

end Controller

end Loadr
