import Loadr.Controller.Causes
import Mathlib.Data.Finset.Sort
import Mathlib.Data.String.Basic

/-!
# Lost agents

The liveness sweep lists the silent agents under the agents lock, reads the runs under another, and
puts the agents on both `lost` and `lost_ever` of each of their runs later on.  A restart puts its
agent on `lost` only.
-/

namespace Loadr

open List Option

structure RunOperationalInfo where
  externallyControlled : List String
  assigned : List String
  contributing : List String
  completed : List String
  lost : List String
  onAgentLoss : OnAgentLoss
  paused : Option Bool
deriving DecidableEq

namespace Controller

variable {M : Metering} {env : Env M} {inner : Inner M} {op : Op M} {o : Outcome M}
  {s s' : State M} {act : Action M} {t : TaskId} {rest : List (Op M)} {a R : String}
  {run run' : ControllerRun M}

/-- `run_operational_info`.  Losses are read off the record, not off the agents now lost. -/
def runOperationalInfo (inner : Inner M) (runId : String) : Option RunOperationalInfo :=
  inner.runs[runId]?.map fun run =>
    { externallyControlled := run.externallyControlled
      assigned := run.assigned
      contributing := run.contributing.sort (· ≤ ·)
      completed := run.done.keys
      lost := run.lostEver.sort (· ≤ ·)
      onAgentLoss := run.onAgentLoss
      paused := run.paused }

/-! ## The sweeper's program -/

def isSweep : Op M → Bool
  | .sweep | .sweepRuns .. | .sweepRun .. | .sweepFilter .. | .sweepLost ..
  | .sweepLostEver .. => true
  | _ => false

theorem isSweep_of_exec (h : exec env inner op = some o) {op' : Op M} (hop' : op' ∈ o.ops)
    (hsweep : isSweep op' = true) : isSweep op = true := by
  have horigin := exec_ops h op' hop'
  cases op' <;> simp only [isSweep, Bool.false_eq_true] at hsweep
  case sweep => exact horigin ▸ rfl
  case sweepRuns => exact horigin.1 ▸ rfl
  case sweepRun => exact horigin ▸ rfl
  case sweepFilter =>
    rcases horigin with ⟨rfl, -⟩ | ⟨id, newly', rfl, -⟩
    · rfl
    · rfl
  case sweepLost | sweepLostEver =>
    obtain ⟨newly, rfl, -⟩ := horigin
    rfl

/-- Every loss ahead is put on record by the very next operation. -/
def Paired : List (Op M) → Prop
  | [] => True
  | op :: p => (∀ a R, op = .sweepLost a R → p.head? = some (.sweepLostEver a R)) ∧ Paired p

theorem Paired.append {p q : List (Op M)} (hp : Paired p) (hq : Paired q) : Paired (p ++ q) := by
  induction p with
  | nil => exact hq
  | cons op p ih =>
    refine ⟨fun a R he => head?_append.trans ?_, ih hp.2⟩
    rw [hp.1 a R he]
    rfl

theorem paired_of_forall {p : List (Op M)} (h : ∀ op ∈ p, ∀ a R, op ≠ .sweepLost a R) :
    Paired p := by
  induction p with
  | nil => trivial
  | cons op p ih =>
    obtain ⟨hop, h⟩ := forall_mem_cons.1 h
    exact ⟨fun a R he => absurd he (hop a R), ih h⟩

theorem paired_losses (R : String) (newly : List String) :
    Paired (newly.flatMap fun id =>
      [Op.sweepLost id R, .sweepLostEver id R, .zeroLiveGauges id R] : List (Op M)) := by
  induction newly with
  | nil => trivial
  | cons id newly ih =>
    refine ⟨?_, fun _ _ => nofun, fun _ _ => nofun, ih⟩
    rintro _ _ ⟨⟩
    rfl

theorem paired_exec (h : exec env inner op = some o) : Paired o.ops := by
  by_cases hop : ∃ R newly, op = .sweepFilter R [] newly
  · obtain ⟨R, newly, rfl⟩ := hop
    cases h
    show Paired (newlyLostOps R newly)
    unfold newlyLostOps
    split
    · trivial
    · exact (paired_losses R newly).append
        (paired_of_forall (forall_mem_singleton.2 (by simp)))
  · refine paired_of_forall fun op' hop' a R he => ?_
    subst he
    obtain ⟨newly, hop'', -⟩ := exec_ops h _ hop'
    exact hop ⟨R, newly, hop''⟩

/-- The sweep stays in its task, where every loss is followed by its record. -/
structure Sweeping (s : State M) : Prop where
  confined : ∀ t, ∀ op ∈ s.tasks t, isSweep op = true → t = .sweeper
  paired : Paired (s.tasks .sweeper)

theorem tasks_sweeper (hexec : exec env s.shared op = some o) :
    (s.commit t rest o).tasks .sweeper =
      if TaskId.sweeper = t then o.ops ++ rest else s.tasks .sweeper := by
  rcases commit_tasks hexec .sweeper with ⟨R, b, ht, -⟩ | ⟨R, ht, -⟩ | ⟨-, ht⟩
  · cases ht
  · cases ht
  · exact ht

theorem Sweeping.step (h : Sweeping s) (hstep : Step s act s') : Sweeping s' where
  confined t' op' hop' hsweep := by
    rcases mem_of_step hstep hop' with hold | hfirst | ⟨hprog, hexec, hnew⟩
    · exact h.confined t' op' hold hsweep
    · cases op' <;> simp [isSweep, isFirst] at hsweep hfirst
    · refine h.confined t' _ ?_ (isSweep_of_exec hexec hnew hsweep)
      rw [hprog]
      exact mem_cons_self
  paired := by
    cases hstep with
    | @exec t env op rest o hprog hexec =>
      rw [tasks_sweeper hexec]
      split
      · rename_i ht
        subst ht
        exact (paired_exec hexec).append (hprog ▸ h.paired).2
      · exact h.paired
    | connect | submit | control => exact h.paired

theorem sweeping_of_reachable : (machine M).Reachable s → Sweeping s := by
  refine invariant_of_step (fun liveness => ?_) fun _ => Sweeping.step
  constructor
  · intro t op hop _
    by_contra ht
    simp [initial, ht] at hop
  · exact paired_of_forall (forall_mem_singleton.2 (by simp))

/-! ## The record of losses -/

def OnRecord (s : State M) (a R : String) : Prop :=
  ∃ run, s.shared.runs[R]? = some run ∧
    (a ∈ run.lostEver ∨ (s.tasks .sweeper).head? = some (.sweepLostEver a R))

theorem OnRecord.step (hlife : Life s) (hstep : Step s act s') (h : OnRecord s a R) :
    OnRecord s' a R := by
  obtain ⟨run, hr, hrec⟩ := h
  obtain ⟨run', hr', heff⟩ := hlife.run_of_step hstep hr
  refine ⟨run', hr', ?_⟩
  have hmono : a ∈ run.lostEver → a ∈ run'.lostEver := by
    rcases heff with rfl | ⟨t, -, -, heff⟩
    · exact fun ha => ha
    · exact fun ha => heff.lostEver_subset ha
  rcases hrec with ha | hhead
  · exact .inl (hmono ha)
  · cases hstep with
    | connect | submit | control => exact .inr hhead
    | @exec t env op rest o hprog hexec =>
      rw [tasks_sweeper hexec]
      split
      · rename_i ht
        subst ht
        -- the sweeper's step is the record
        rw [hprog] at hhead
        cases hhead
        cases hexec
        have he : (s.shared.modifyRun R _).runs[R]? = some run' := hr'
        rw [getElem?_modifyRun_self, hr] at he
        cases he
        exact .inl (Finset.mem_insert_self a run.lostEver)
      · exact .inr hhead

/-- Restarts lose only agents whose loss is on record already. -/
def recordedRestarts (s : State M) : Action M → Bool
  | .step t _ =>
    match s.tasks t with
    | .restartedLost a R :: _ => s.shared.runs[R]?.all fun run => decide (a ∈ run.lostEver)
    | _ => true
  | _ => true

def LossesOnRecord (s : State M) : Prop :=
  ∀ (R : String) (run : ControllerRun M), s.shared.runs[R]? = some run →
    ∀ a ∈ run.lost, OnRecord s a R

theorem LossesOnRecord.step (hlife : Life s) (hsweep : Sweeping s) (h : LossesOnRecord s)
    (hguard : recordedRestarts s act = true) (hstep : Step s act s') : LossesOnRecord s' := by
  intro R run' hr' a ha
  rcases run_of_step hstep hr' with
    hr | ⟨t, hprog, hexec, ⟨run, hr, heff⟩ | ⟨sub, selected, -, -, rfl⟩⟩
  · exact (h R run' hr a ha).step hlife hstep
  · have hold : a ∈ run.lost → OnRecord _ a R := fun ha => (h R run hr a ha).step hlife hstep
    cases heff
    case restartedLost =>
      rcases Finset.mem_insert.1 ha with rfl | ha
      · -- on record before, by the guard
        simp only [recordedRestarts, hprog, hr, all_some, decide_eq_true_eq] at hguard
        exact ⟨_, hr', .inl hguard⟩
      · exact hold ha
    case sweepLost =>
      rcases Finset.mem_insert.1 ha with rfl | ha
      · -- its record is the next operation
        have hhead : Op.sweepLost a R ∈ s.tasks t := by
          rw [hprog]
          exact mem_cons_self
        obtain rfl := hsweep.confined t _ hhead rfl
        have hpaired := (hprog ▸ hsweep.paired).1 a R rfl
        refine ⟨_, hr', .inr ?_⟩
        rw [tasks_sweeper hexec, if_pos rfl]
        cases hexec
        exact hpaired
      · exact hold ha
    case resumeLost => exact hold (Finset.mem_of_mem_erase ha)
    all_goals exact hold ha
  · exact absurd ha (Finset.notMem_empty a)

theorem lossesOnRecord_of_reachable
    (h : ((machine M).guarded fun s act => recordedRestarts s act = true).Reachable s) :
    LossesOnRecord s := by
  refine guarded_invariant (fun liveness R run hr => ?_) (fun hreach hguard h hstep => ?_) h
  · cases hr
  · exact h.step (life_of_reachable hreach.of_guarded) (sweeping_of_reachable hreach.of_guarded)
      hguard hstep

theorem OnRecord.along {as : List (Action M)} (hs : (machine M).Reachable s) (h : OnRecord s a R)
    (hrun : (machine M).run s as = some s') : OnRecord s' a R := by
  induction as generalizing s with
  | nil => exact some.inj hrun ▸ h
  | cons act as ih =>
    obtain ⟨s₁, hs₁, hrun⟩ := bind_eq_some_iff.1 hrun
    exact ih (hs.step hs₁) (h.step (life_of_reachable hs) (step_of_next hs₁)) hrun

/-- Everybody who was ever lost is named to operators as lost, except for the moment between the
sweep's insertions into `lost` and `lost_ever`. -/
theorem losses_on_record
    (hs : ((machine M).guarded fun s act => recordedRestarts s act = true).Reachable s)
    {as : List (Action M)} (hrun : (machine M).run s as = some s')
    (hr : s.shared.runs[R]? = some run) (ha : a ∈ run.lost) :
    ∃ info, runOperationalInfo s'.shared R = some info ∧
      (a ∈ info.lost ∨ (s'.tasks .sweeper).head? = some (.sweepLostEver a R)) := by
  have hrec := (lossesOnRecord_of_reachable hs R run hr a ha).along hs.of_guarded hrun
  obtain ⟨run', hr', hrec⟩ := hrec
  refine ⟨_, by rw [runOperationalInfo, hr', map_some], hrec.imp_left fun ha => ?_⟩
  exact (Finset.mem_sort _).2 ha

theorem losses_on_record_resumed :
    ∃ s s' as run,
      ((machine listing).guarded fun s act => recordedRestarts s act = true).Reachable s ∧
      (machine listing).run s as = some s' ∧ s.shared.runs["r"]? = some run ∧ "a" ∈ run.lost ∧
      (∃ run' ∈ s'.shared.runs["r"]?, "a" ∉ run'.lost) ∧
      ∃ info, runOperationalInfo s'.shared "r" = some info ∧
        ("a" ∈ info.lost ∨ (s'.tasks .sweeper).head? = some (.sweepLostEver "a" "r")) := by
  obtain ⟨s, hs, ⟨run, hr, ha⟩, hlater⟩ := Machine.exists_reachable_of_run
    ((machine listing).guarded fun s act => recordedRestarts s act = true) (initialized 10)
    (startedPair .keepGoing ++ sweeps 100 8)
    (fun s => (∃ run ∈ s.shared.runs["r"]?, "a" ∈ run.lost) ∧
      ((machine listing).run s (claimAgain 3 5)).any fun s' =>
        decide (∃ run' ∈ s'.shared.runs["r"]?, "a" ∉ run'.lost)) (by decide +kernel)
  obtain ⟨s', hs', hlater⟩ := (any_eq_true _ _).1 hlater
  exact ⟨s, s', _, run, hs, hs', hr, ha, of_decide_eq_true hlater, losses_on_record hs hs' hr ha⟩

/-- A restart is a loss that no operator gets to see. -/
theorem restart_not_on_record : ∃ s, (machine listing).Reachable s ∧
    ∃ run ∈ s.shared.runs["r"]?, run.state = .running ∧ "a" ∈ run.lost ∧ "a" ∉ run.lostEver ∧
      (∃ info ∈ runOperationalInfo s.shared "r", info.lost = []) ∧
      (s.tasks .sweeper).length = 1 := by
  exact (machine listing).exists_reachable_of_run (initialized 10)
    (startedPair .keepGoing ++ intrude "a" "x" 3 9) _ (by decide +kernel)

/-! ## Silent agents -/

def timeOf : Action M → Option ℕ
  | .step _ env => some env.now
  | _ => none

/-- The sweep has the agent on its list of silent ones, or is about to lose it. -/
def condemns (a : String) : Op M → Bool
  | .sweepRuns lostIds | .sweepRun _ lostIds => decide (a ∈ lostIds)
  | .sweepFilter _ lostIds newly => decide (a ∈ lostIds ∨ a ∈ newly)
  | .sweepLost a' _ => a' == a
  | _ => false

def condemned (s : State M) (a : String) : Bool := (s.tasks .sweeper).any (condemns a)

/-- No agent is heard from while the sweep has it on its list: neither does it register, nor is a
message of its live session admitted. -/
def undisturbed (s : State M) : Action M → Bool
  | .step t _ =>
    match s.tasks t with
    | .registerAgent reg _ :: _ => !condemned s reg.agentId
    | .admitMessage a k _ :: _ =>
      !((s.shared.agents[a]?.any fun e => e.session == k) && condemned s a)
    | _ => true
  | _ => true

def ListedSilent (s : State M) (now : ℕ) : Prop :=
  ∀ op ∈ s.tasks .sweeper, ∀ a, condemns a op = true → ∀ e, s.shared.agents[a]? = some e →
    s.shared.liveness < now - e.lastHeartbeat

theorem condemns_of_exec (h : exec env inner op = some o) {op' : Op M} (hop' : op' ∈ o.ops)
    (hc : condemns a op' = true) :
    condemns a op = true ∨ op = .sweep ∧ a ∈ inner.agents.stale inner.liveness env.now := by
  have horigin := exec_ops h op' hop'
  cases op' <;> simp only [condemns, Bool.false_eq_true] at hc
  case sweepRuns ids => exact .inr ⟨horigin.1, horigin.2 a (of_decide_eq_true hc)⟩
  case sweepRun R ids => exact .inl (horigin ▸ hc)
  case sweepFilter R ids newly =>
    have hc := of_decide_eq_true hc
    rcases horigin with ⟨rfl, rfl⟩ | ⟨id, newly', rfl, hsub⟩
    · exact .inl (decide_eq_true (hc.resolve_right not_mem_nil))
    · refine .inl (decide_eq_true ?_)
      rcases hc with hc | hc
      · exact .inl (mem_cons_of_mem _ hc)
      · exact (hsub a hc).imp_left fun he : a = id => he ▸ mem_cons_self
  case sweepLost a' R =>
    obtain ⟨newly, rfl, hmem⟩ := horigin
    exact .inl (decide_eq_true (.inr (beq_iff_eq.1 hc ▸ hmem)))

theorem mem_stale {agents : Agents} {liveness now : ℕ} {e : AgentEntry}
    (h : a ∈ agents.stale liveness now) (he : agents[a]? = some e) :
    liveness < now - e.lastHeartbeat := by
  obtain ⟨⟨id, e'⟩, hmem, rfl⟩ := mem_map.1 h
  obtain ⟨hmem, hlt⟩ := mem_filter.1 hmem
  obtain rfl := some.inj
    ((Std.ExtTreeMap.mem_toList_iff_getElem?_eq_some.1 hmem).symm.trans he)
  exact of_decide_eq_true hlt

theorem exec_liveness (h : exec env inner op = some o) : o.shared.liveness = inner.liveness := by
  have hs := exec_shared h
  generalize o.shared = inner' at hs
  cases hs <;> rfl

theorem heard_of_exec (h : exec env inner op = some o) {e' : AgentEntry}
    (he' : o.shared.agents[a]? = some e')
    (hreg : ∀ reg k, op = .registerAgent reg k → reg.agentId ≠ a)
    (hadm : ∀ k msg, op = .admitMessage a k msg → ∀ e, inner.agents[a]? = some e → e.session ≠ k) :
    ∃ e, inner.agents[a]? = some e ∧ e'.lastHeartbeat = e.lastHeartbeat := by
  cases he : inner.agents[a]? with
  | none =>
    obtain ⟨reg, k, hop, hid, -⟩ := exec_entry_new h he he'
    exact absurd hid (hreg reg k hop)
  | some e =>
    obtain ⟨e₁, he₁, heff⟩ := exec_entry h he
    cases he₁.symm.trans he'
    refine ⟨e, rfl, ?_⟩
    cases heff with
    | registered reg k hid => exact absurd hid (hreg reg k rfl)
    | admitted msg => cases hadm _ msg rfl e he rfl
    | same | heartbeat | disconnected | released | reserved => rfl

theorem ListedSilent.step {now now' : ℕ} (h : ListedSilent s now)
    (hguard : undisturbed s act = true) (hstep : Step s act s') (hle : now ≤ now')
    (hnow : now' = (timeOf act).getD now) : ListedSilent s' now' := by
  intro op' hop' a hc e' he'
  have hcond : ∀ op ∈ s.tasks .sweeper, condemns a op = true → condemned s a = true :=
    fun op hop hc => any_eq_true.2 ⟨op, hop, hc⟩
  have hold : ∀ op ∈ s.tasks .sweeper, condemns a op = true →
      s'.shared.liveness < now' - e'.lastHeartbeat := by
    intro op₀ hop₀ hc₀
    cases hstep with
    | @exec t env op rest o hprog hexec =>
      obtain ⟨e, he, hlast⟩ := heard_of_exec hexec he'
        (fun reg k hop hid => by
          subst hop hid
          simp [undisturbed, hprog, hcond op₀ hop₀ hc₀] at hguard)
        (fun k msg hop e he hk => by
          subst hop hk
          simp [undisturbed, hprog, he, hcond op₀ hop₀ hc₀] at hguard)
      have hlt := h op₀ hop₀ a hc₀ e he
      have hliv := exec_liveness hexec
      show o.shared.liveness < _
      omega
    | connect | submit | control =>
      have hlt := h op₀ hop₀ a hc₀ e' he'
      show s.shared.liveness < _
      omega
  rcases mem_of_step hstep hop' with hmem | hfirst | ⟨hprog, hexec, hnew⟩
  · exact hold op' hmem hc
  · cases op' <;> simp [condemns, isFirst] at hc hfirst
  · rcases condemns_of_exec hexec hnew hc with hc | ⟨rfl, hstale⟩
    · exact hold _ (hprog ▸ mem_cons_self) hc
    · -- the scan itself
      cases hexec
      have hlt := mem_stale hstale he'
      rw [hnow]
      exact hlt

theorem listedSilent_of_reachable {now : ℕ}
    (h : (((machine M).guarded fun s act => undisturbed s act = true).clocked timeOf).Reachable
      (s, now)) : ListedSilent s now := by
  refine h.invariant (I := fun s => ListedSilent s.1 s.2) ?_ ?_
  · rintro ⟨s₀, now₀⟩ ⟨liveness, rfl⟩ op hop a hc
    obtain rfl := mem_singleton.1 hop
    cases hc
  · intro s₁ act s₂ _ h₁ hnext
    obtain ⟨hle, hnow, hnext⟩ := Machine.clocked_next.1 hnext
    obtain ⟨hguard, hnext⟩ := Machine.guarded_next.1 hnext
    exact h₁.step hguard (step_of_next hnext) hle hnow

/-- Whenever the sweep is to put an agent on `lost`, whatever the time by then, the agent's entry
has had no traffic for longer than the liveness window. -/
theorem sweep_loses_silent {now : ℕ}
    (hs : (((machine M).guarded fun s act => undisturbed s act = true).clocked timeOf).Reachable
      (s, now))
    (hprog : s.tasks t = .sweepLost a R :: rest) {now' : ℕ} (hnow : now ≤ now') {e : AgentEntry}
    (he : s.shared.agents[a]? = some e) : s.shared.liveness < now' - e.lastHeartbeat := by
  have hhead : Op.sweepLost a R ∈ s.tasks t := by
    rw [hprog]
    exact mem_cons_self
  have hreach : (machine M).Reachable s := (Machine.Reachable.of_clocked hs).of_guarded
  obtain rfl := (sweeping_of_reachable hreach).confined t _ hhead rfl
  have hlt := listedSilent_of_reachable hs _ hhead a (beq_self_eq_true a) e he
  omega

def losesNext (s : State M) (a R : String) : Bool :=
  match s.tasks .sweeper with
  | .sweepLost a' R' :: _ => a' == a && R' == R
  | _ => false

theorem losesNext_iff :
    losesNext s a R = true ↔ ∃ rest, s.tasks .sweeper = .sweepLost a R :: rest := by
  unfold losesNext
  split
  · rename_i a' R' rest hprog
    simp [hprog]
  · rename_i hprog
    simpa using fun rest => hprog a R rest

theorem sweep_loses_silent_pair :
    ∃ s now rest, (((machine listing).guarded fun s act => undisturbed s act = true).clocked
        timeOf).Reachable (s, now) ∧ s.tasks .sweeper = .sweepLost "a" "r" :: rest ∧
      ∃ e ∈ s.shared.agents["a"]?, s.shared.liveness < 100 - e.lastHeartbeat := by
  have hinit : (((machine listing).guarded fun s act => undisturbed s act = true).clocked
      timeOf).init (initial listing 10, 0) := initialized 10
  obtain ⟨⟨s, now⟩, hs, hlose, hnow, e, he, -⟩ := Machine.exists_reachable_of_run _ hinit
    (startedPair .keepGoing ++ sweeps 100 6)
    (fun s => losesNext s.1 "a" "r" = true ∧ s.2 = 100 ∧ ∃ e ∈ s.1.shared.agents["a"]?, True)
    (by decide +kernel)
  obtain ⟨rest, hprog⟩ := losesNext_iff.1 hlose
  exact ⟨s, now, rest, hs, hprog, e, he, sweep_loses_silent hs hprog (le_of_eq hnow) he⟩

/-- A heartbeat between the scan and the insertion does not save the agent: it is lost although it
is connected and has just been heard from, and the run fails for it. -/
theorem sweep_loses_live_agent :
    ∃ s now, ((machine listing).clocked timeOf).Reachable (s, now) ∧
      losesNext s "a" "r" = true ∧
      (∃ e ∈ s.shared.agents["a"]?, e.connected = true ∧ e.lastHeartbeat = now) ∧
      ∃ s' ∈ ((machine listing).clocked timeOf).run (s, now) (sweeps now 9),
        (∃ e ∈ s'.1.shared.agents["a"]?, e.connected = true ∧ e.lastHeartbeat = s'.2) ∧
        ∃ run ∈ s'.1.shared.runs["r"]?, "a" ∈ run.lost ∧ run.state = .failed := by
  have hinit : ((machine listing).clocked timeOf).init (initial listing 10, 0) := initialized 10
  obtain ⟨⟨s, now⟩, hs, hlose, hnow, he, hlater⟩ := Machine.exists_reachable_of_run _ hinit
    (startedRun ++ sweeps 100 1 ++
      [.step (.session 1) { now := 100, inbound := .message { seq := 0, msg := .heartbeat 1 } },
        .step (.session 1) { now := 100 }] ++ sweeps 100 4)
    (fun s => losesNext s.1 "a" "r" = true ∧ s.2 = 100 ∧
      (∃ e ∈ s.1.shared.agents["a"]?, e.connected = true ∧ e.lastHeartbeat = s.2) ∧
      ∃ s' ∈ ((machine listing).clocked timeOf).run s (sweeps 100 9),
        (∃ e ∈ s'.1.shared.agents["a"]?, e.connected = true ∧ e.lastHeartbeat = s'.2) ∧
        ∃ run ∈ s'.1.shared.runs["r"]?, "a" ∈ run.lost ∧ run.state = .failed)
    (by decide +kernel)
  obtain rfl : now = 100 := hnow
  exact ⟨s, 100, hs, hlose, he, hlater⟩

end Controller

end Loadr
