import Loadr.Controller.Sessions

/-!
# Restarts of reserved agents

`register_agent` frees the reservation of an agent whose process is replaced, and then tells the run
that held it.  The run may not be in the run table by then, and the `resume_run` of another
registration may take the loss back.
-/

namespace Loadr

open List Option

namespace Controller

variable {M : Metering} {env : Env M} {inner : Inner M} {op : Op M} {o : Outcome M}
  {s s' : State M} {act : Action M} {R a : String} {k : ℕ}

/-! ## What is known of a replaced agent -/

/-- The run has a preparation failure on record, is over, or is done with the agent. -/
def Accounted (inner : Inner M) (a R : String) : Prop :=
  ∃ run ∈ inner.runs[R]?, run.prep.failure.isSome = true ∨ run.state.isTerminal = true ∨
    run.done.contains a = true ∨ a ∈ run.lost

instance (inner : Inner M) (a R : String) : Decidable (Accounted inner a R) :=
  inferInstanceAs (Decidable (∃ _ ∈ _, _))

variable {run run' : ControllerRun M} {reg : Register}

/-- The operations of `resume_run` up to the one that takes a loss back. -/
def resumes (a : String) : Op M → Bool
  | .resumeRun a' _ | .resumeDone a' _ | .resumeLost a' _ => a' == a
  | _ => false

theorem Accounted.step (hlife : Life s) (hstep : Step s act s')
    (hquiet : ∀ t, ∀ op ∈ s.tasks t, resumes a op = false) (h : Accounted s.shared a R) :
    Accounted s'.shared a R := by
  obtain ⟨run, hr, hacc⟩ := h
  obtain ⟨run', hr', heff⟩ := hlife.run_of_step hstep hr
  refine ⟨run', hr', ?_⟩
  rcases heff with rfl | ⟨t, @⟨env, op, _, _, hprog, -, heff⟩⟩
  · exact hacc
  · have hop : op ≠ .resumeLost a R := by
      rintro rfl
      have := hquiet t _ (hprog ▸ mem_cons_self)
      simp [resumes] at this
    exact hacc.imp heff.failure_mono (Or.imp heff.terminal_mono
      (Or.imp heff.done_mono (heff.lost_mono hop)))

/-! ## The handler of a restart -/

/-- The operations of `terminate_participation` up to the one that loses the agent. -/
def restarts (a R : String) : Op M → Bool
  | .terminateParticipation a' R' | .restartedState a' R' | .restartedDone a' R'
  | .restartedLost a' R' | .recordPrepFailure R' _ _ (.restarted a') => a' == a && R' == R
  | _ => false

theorem pair_of_beq {a' R' : String} (h : (a' == a && R' == R) = true) : a' = a ∧ R' = R := by
  simpa using h

theorem restarts_exec (h : exec env inner op = some o) (hop : restarts a R op = true)
    (hR : R ∈ inner.runs) :
    Accounted o.shared a R ∨ ∃ op' ∈ o.ops, restarts a R op' = true := by
  obtain ⟨run, hr⟩ : ∃ run, inner.runs[R]? = some run :=
    isSome_iff_exists.1 (Std.ExtTreeMap.mem_iff_isSome_getElem?.1 hR)
  cases op <;> simp only [restarts, Bool.false_eq_true] at hop
  case terminateParticipation a' R' =>
    cases h
    exact .inr ⟨_, mem_singleton_self _, hop⟩
  case recordPrepFailure R' reason verdict after =>
    cases after <;> simp only [Bool.false_eq_true] at hop
    case restarted a' =>
      obtain ⟨rfl, rfl⟩ := pair_of_beq hop
      obtain ⟨-, rfl⟩ := withState_some h hr
      split_ifs
      · refine .inl ⟨run.recordPrepFailure reason verdict, getElem?_modifyRun hr _, .inl ?_⟩
        rw [recordPrepFailure_eq]
        rfl
      · exact .inr ⟨_, mem_singleton_self _, hop⟩
  all_goals obtain ⟨rfl, rfl⟩ := pair_of_beq hop
  case restartedState a' R' =>
    obtain ⟨-, rfl⟩ := withState_some h hr
    dsimp only
    split_ifs with ht
    · exact .inl ⟨run, hr, .inr (.inl ht)⟩
    · exact .inr ⟨_, mem_singleton_self _, hop⟩
  case restartedDone a' R' =>
    simp only [exec, withRun, hr, some.injEq] at h
    subst h
    dsimp only
    split_ifs with hd
    · exact .inl ⟨run, hr, .inr (.inr (.inl hd))⟩
    · exact .inr ⟨_, mem_singleton_self _, hop⟩
  case restartedLost a' R' =>
    simp only [exec, withRun, hr, some.injEq] at h
    subst h
    exact .inl ⟨{ run with lost := insert a' run.lost }, getElem?_modifyRun hr _,
      .inr (.inr (.inr (Finset.mem_insert_self _ _)))⟩

theorem open_of_mem (h : Sessions s) (hop : op ∈ s.tasks (.session k)) :
    k ≤ s.shared.sessionCounter := by
  by_contra hk
  rw [h.unopened k (by omega)] at hop
  cases hop

theorem restarts_step (hsess : Sessions s) (hR : R ∈ s.shared.runs) (hstep : Step s act s')
    (hop : op ∈ s.tasks (.session k)) (hres : restarts a R op = true) :
    (∃ op' ∈ s'.tasks (.session k), restarts a R op' = true) ∨ Accounted s'.shared a R := by
  have hk := open_of_mem hsess hop
  cases hstep with
  | @exec t env op₀ rest o hprog hexec =>
    rw [commit_tasks_session hexec k]
    split_ifs with ht
    · subst ht
      rw [hprog] at hop
      rcases mem_cons.1 hop with rfl | hrest
      · rcases restarts_exec hexec hres hR with hacc | ⟨op', hop', hres'⟩
        · exact .inr hacc
        · exact .inl ⟨op', mem_append_left _ hop', hres'⟩
      · exact .inl ⟨op, mem_append_right _ hrest, hres⟩
    · exact .inl ⟨op, hop, hres⟩
  | connect reg =>
    refine .inl ⟨op, ?_, hres⟩
    have hne : TaskId.session k ≠ .session (s.shared.sessionCounter + 1) := by
      simp only [ne_eq, TaskId.session.injEq]
      omega
    show op ∈ Function.update s.tasks _ _ (.session k)
    rw [Function.update_of_ne hne]
    exact hop
  | submit | control => exact .inl ⟨op, hop, hres⟩

theorem handles_of_restarts (h : restarts a R op = true) : handles a op = true := by
  cases op <;> simp only [restarts, Bool.false_eq_true, Bool.and_eq_true] at h
  case recordPrepFailure R' reason verdict after =>
    cases after <;> simp only [Bool.false_eq_true, Bool.and_eq_true] at h
    exact h.1
  all_goals exact h.1

/-- An agent registers only while no other session of it has followups of its registration left. -/
def spaced (s : State M) : Action M → Bool
  | .step t _ =>
    match s.tasks t with
    | .registerAgent reg _ :: _ => (List.range (s.shared.sessionCounter + 1)).all fun k =>
      !registering reg.agentId (s.tasks (.session k))
    | _ => true
  | _ => true

/-- The process of a reserved agent is replaced only once the run that holds it is in the run
table. -/
def knownRestart (s : State M) : Action M → Bool
  | .step t _ =>
    match s.tasks t with
    | .registerAgent reg _ :: _ =>
      ((s.shared.agents[reg.agentId]?.filter fun e => e.incarnation != reg.incarnation).bind
        fun e => e.activeRun).all fun R => s.shared.runs.contains R
    | _ => true
  | _ => true

theorem not_registering_of_spaced {t : TaskId} {rest : List (Op M)} (hsess : Sessions s)
    (hguard : spaced s (.step t env) = true) (hprog : s.tasks t = .registerAgent reg k :: rest)
    (j : ℕ) : registering reg.agentId (s.tasks (.session j)) = false := by
  by_cases hj : j ≤ s.shared.sessionCounter
  · simp only [spaced, hprog, List.all_eq_true, List.mem_range, Bool.not_eq_true'] at hguard
    exact hguard j (by omega)
  · rw [hsess.unopened j (by omega)]
    rfl

/-- While the handler of a restart is at work, no loss is taken back, and the run accounts for the
agent or the handler will see to it. -/
structure Restarting (s : State M) (a R : String) (k : ℕ) : Prop where
  quiet : ∀ t, ∀ op ∈ s.tasks t, resumes a op = false
  known : R ∈ s.shared.runs
  ahead : (∃ op ∈ s.tasks (.session k), restarts a R op = true) ∨ Accounted s.shared a R

theorem Restarting.quiet_step (h : Restarting s a R k) (hsess : Sessions s)
    (hguard : spaced s act = true) (hreg : registering a (s.tasks (.session k)) = true)
    (hstep : Step s act s') : ∀ t, ∀ op ∈ s'.tasks t, resumes a op = false := by
  intro t' op' hop'
  by_contra hres
  rw [Bool.not_eq_false] at hres
  rcases mem_of_step hstep hop' with hold | hfirst | ⟨hprog, hexec, hnew⟩
  · cases (h.quiet t' op' hold).symm.trans hres
  · cases op' <;> simp [resumes, isFirst] at hres hfirst
  · have horigin := exec_ops hexec op' hnew
    have hhead := h.quiet t' _ (hprog ▸ mem_cons_self)
    cases op' <;> simp only [resumes, Bool.false_eq_true] at hres
    case resumeRun a' R' =>
      -- a new claim needs a registration, which has to wait for this one
      obtain rfl := beq_iff_eq.1 hres
      obtain ⟨reg, j, rfl, rfl, -⟩ := horigin
      cases (not_registering_of_spaced hsess hguard hprog k).symm.trans hreg
    case resumeDone | resumeLost =>
      obtain ⟨rfl, -⟩ := horigin
      cases hhead.symm.trans hres

theorem Restarting.ahead_step (h : Restarting s a R k) (hlife : Life s) (hsess : Sessions s)
    (hstep : Step s act s') :
    (∃ op ∈ s'.tasks (.session k), restarts a R op = true) ∨ Accounted s'.shared a R := by
  rcases h.ahead with ⟨op, hop, hres⟩ | hacc
  · exact restarts_step hsess h.known hstep hop hres
  · exact .inr (hacc.step hlife hstep h.quiet)

theorem Restarting.step (h : Restarting s a R k) (hreach : (machine M).Reachable s)
    (hguard : spaced s act = true) (hreg : registering a (s.tasks (.session k)) = true)
    (hstep : Step s act s') : Restarting s' a R k where
  quiet := h.quiet_step (sessions_of_reachable hreach) hguard hreg hstep
  known := by
    obtain ⟨run, hr⟩ := isSome_iff_exists.1
      (Std.ExtTreeMap.mem_iff_isSome_getElem?.1 h.known)
    obtain ⟨run', hr', -⟩ := (life_of_reachable hreach).run_of_step hstep hr
    rw [Std.ExtTreeMap.mem_iff_isSome_getElem?, hr']
    rfl
  ahead := h.ahead_step (life_of_reachable hreach) (sessions_of_reachable hreach) hstep

theorem restarted_ops {e : AgentEntry} (hexec : exec env inner (.registerAgent reg k) = some o)
    (he : inner.agents[reg.agentId]? = some e) (hinc : e.incarnation ≠ reg.incarnation)
    (hR : e.activeRun = some R) :
    o.ops = [.send e.session .aborted, .terminateParticipation reg.agentId R,
      .pump reg.agentId k] := by
  have hregister : (inner.agents.register reg k env.now).1 =
      { superseded := some e, restarted := true, followup := .terminateParticipation R } := by
    simp [Agents.register, Agents.carryReservation, he, hR, hinc]
  cases hexec
  show registrationOps reg k (inner.agents.register reg k env.now).1 = _
  rw [hregister]
  simp [registrationOps]

theorem restarting_registered {rest : List (Op M)} {e : AgentEntry}
    (hreach : (machine M).Reachable s) (hguard : spaced s (.step (.session k) env) = true)
    (hknown : knownRestart s (.step (.session k) env) = true)
    (hprog : s.tasks (.session k) = .registerAgent reg k :: rest)
    (he : s.shared.agents[reg.agentId]? = some e) (hinc : e.incarnation ≠ reg.incarnation)
    (hR : e.activeRun = some R) (hnext : next s (.step (.session k) env) = some s') :
    Restarting s' reg.agentId R k := by
  have hsess := sessions_of_reachable hreach
  have hstep := step_of_next hnext
  generalize hact : Action.step (.session k) env = act at hstep
  cases hstep with
  | connect | submit | control => cases hact
  | @exec t env' op rest' o hprog' hexec =>
    obtain ⟨rfl, rfl⟩ := Action.step.inj hact
    rw [hprog] at hprog'
    cases hprog'
    have hops := restarted_ops hexec he hinc hR
    refine ⟨fun t op hop => ?_, ?_, ?_⟩
    · by_contra hres
      rw [Bool.not_eq_false] at hres
      have hold : op ∈ s.tasks t → False := by
        -- a claim under way would be in another session that registers the agent
        intro hop
        have hh : handles reg.agentId op = true := by
          cases op <;> simp only [resumes, Bool.false_eq_true] at hres <;> exact hres
        obtain ⟨j, rfl, hj⟩ := handled_of_reachable hreach t op hop _ hh
        rw [← registering_iff (hsess.tidy (.session j)),
          not_registering_of_spaced hsess hguard hprog j] at hj
        cases hj
      rcases mem_commit hprog hexec hop with ⟨hop, -⟩ | hfirst | ⟨rfl, hnew⟩
      · exact hold hop
      · have := hfirst.isFirst
        cases op <;> simp [resumes, isFirst] at hres this
      · rw [hops] at hnew
        simp only [mem_cons, not_mem_nil, or_false] at hnew
        rcases hnew with rfl | rfl | rfl <;> cases hres
    · refine exec_mem_runs hexec ?_
      simpa [knownRestart, hprog, he, hR, hinc, Option.filter] using hknown
    · refine .inl ⟨.terminateParticipation reg.agentId R, ?_, by simp [restarts]⟩
      rw [commit_tasks_session hexec k, if_pos rfl, hops]
      simp

/-- When the handler of a restart is done, the run that held the replaced process accounts for
it. -/
theorem restart_accounted {s₁ s₂ : State M} {reg : Register} {rest : List (Op M)} {e : AgentEntry}
    (hs : ((machine M).guarded fun s act => spaced s act && knownRestart s act).Reachable s)
    (hprog : s.tasks (.session k) = .registerAgent reg k :: rest)
    (he : s.shared.agents[reg.agentId]? = some e) (hinc : e.incarnation ≠ reg.incarnation)
    (hR : e.activeRun = some R)
    (hnext : ((machine M).guarded fun s act => spaced s act && knownRestart s act).next s
      (.step (.session k) env) = some s₁)
    (hpath : ((machine M).guarded fun s act => spaced s act && knownRestart s act).While
      (fun s => registering reg.agentId (s.tasks (.session k)) = true) s₁ s₂)
    (hdone : registering reg.agentId (s₂.tasks (.session k)) = false) :
    Accounted s₂.shared reg.agentId R := by
  have hreach₁ := hs.step hnext
  obtain ⟨hguard, hnext⟩ := Machine.guarded_next.1 hnext
  obtain ⟨hspaced, hknown⟩ := (Bool.and_eq_true _ _).mp hguard
  have hstart := restarting_registered hs.of_guarded hspaced hknown hprog he hinc hR hnext
  have hall : Restarting s₂ reg.agentId R k := by
    clear hdone
    induction hpath with
    | refl => exact hstart
    | step hpath hreg hnext ih =>
      have hreach := (hreach₁.while hpath).of_guarded
      obtain ⟨hguard, hnext⟩ := Machine.guarded_next.1 hnext
      exact ih.step hreach ((Bool.and_eq_true _ _).mp hguard).1 hreg (step_of_next hnext)
  rcases hall.ahead with ⟨op, hop, hres⟩ | hacc
  · have hreach := (hreach₁.while hpath).of_guarded
    obtain ⟨j, hj, hreg⟩ := handled_of_reachable hreach _ op hop _ (handles_of_restarts hres)
    cases hj
    rw [← registering_iff ((sessions_of_reachable hreach).tidy (.session k)), hdone] at hreg
    cases hreg
  · exact hacc

theorem restart_accounted_started :
    ∃ s₂ : State listing, (machine listing).Reachable s₂ ∧
      registering "a" (s₂.tasks (.session 3)) = false ∧ Accounted s₂.shared "a" "r" := by
  obtain ⟨s₀, hs₀, hcounter, ⟨e, he, hinc, hR⟩, s, hs, s₁, hs₁, s₂, hs₂, hdone⟩ :=
    Machine.exists_reachable_of_run
      ((machine listing).guarded fun s act => spaced s act && knownRestart s act) (initialized 10)
      (startedPair .keepGoing)
      (fun s₀ => s₀.shared.sessionCounter = 2 ∧
        (∃ e ∈ s₀.shared.agents["a"]?, e.incarnation ≠ "x" ∧ e.activeRun = some "r") ∧
        ∃ s ∈ ((machine listing).guarded fun s act => spaced s act && knownRestart s act).next s₀
            (.connect (process "a" "x" "")),
          ∃ s₁ ∈ ((machine listing).guarded fun s act => spaced s act && knownRestart s act).next s
              (.step (.session 3) {}),
            ∃ s₂ ∈ (((machine listing).guarded fun s act => spaced s act &&
                knownRestart s act).guarded fun s _ =>
                  registering "a" (s.tasks (.session 3)) = true).run s₁ (steps (.session 3) 8),
              registering "a" (s₂.tasks (.session 3)) = false) (by decide +kernel)
  obtain ⟨hagents, hprog⟩ : s.shared.agents = s₀.shared.agents ∧
      s.tasks (.session 3) = [.registerAgent (process "a" "x" "") 3] := by
    have hconnect : next s₀ (.connect (process "a" "x" "")) = some s :=
      (Machine.guarded_next.1 hs).2
    cases step_of_next hconnect with
    | connect reg =>
      refine ⟨rfl, ?_⟩
      show Function.update s₀.tasks _ _ _ = _
      rw [hcounter, Function.update_self]
  have hpath := Machine.while_of_run _ _ .refl _ hs₂
  have hacc := restart_accounted (hs₀.step hs) hprog (by rw [hagents]; exact he) hinc hR hs₁ hpath
    hdone
  exact ⟨s₂, (((hs₀.step hs).step hs₁).while hpath).of_guarded, hdone, hacc⟩

/-- An agent is reserved for a run, and its process is replaced before the run is in the run table:
nobody ever tells the run. -/
theorem restart_forgotten : ∃ s₀ s : State listing, (machine listing).Reachable s₀ ∧
    (∃ e ∈ s₀.shared.agents["a"]?, e.incarnation = "i" ∧ e.activeRun = some "r") ∧
    (machine listing).run s₀ (intrude "a" "x" 2 4 ++ steps (.submit "r") 1) = some s ∧
    .registered "a" 2 "" true ∈ s.trace ∧ registering "a" (s.tasks (.session 2)) = false ∧
    (∃ run ∈ s.shared.runs["r"]?, "a" ∈ run.assigned ∧ run.state = .pending) ∧
    ¬Accounted s.shared "a" "r" := by
  obtain ⟨s₀, hs₀, he, s, hs, hlater⟩ := Machine.exists_reachable_of_run (machine listing)
    (initialized 10) (intrude "a" "i" 1 1 ++ [.submit submission] ++ steps (.submit "r") 1)
    (fun s₀ => (∃ e ∈ s₀.shared.agents["a"]?, e.incarnation = "i" ∧ e.activeRun = some "r") ∧
      ∃ s ∈ (machine listing).run s₀ (intrude "a" "x" 2 4 ++ steps (.submit "r") 1),
        .registered "a" 2 "" true ∈ s.trace ∧ registering "a" (s.tasks (.session 2)) = false ∧
        (∃ run ∈ s.shared.runs["r"]?, "a" ∈ run.assigned ∧ run.state = .pending) ∧
        ¬Accounted s.shared "a" "r") (by decide +kernel)
  exact ⟨s₀, s, hs₀, he, hs, hlater⟩

end Controller

end Loadr
