import Loadr.Controller.Restarts
import Loadr.Controller.Settle

/-!
# Reservations

An entry of the registry is reserved for at most one run.  What ties an agent to a run beyond its
entry are the followups of its registration: `Controller.Backed` says that a run which counts on an
agent has its reservation, accounts for it otherwise, or is about to be told of a restart.
-/

namespace Loadr

open List Option

namespace Controller

open Barrier

variable {M : Metering} {env : Env M} {inner : Inner M} {op : Op M} {o : Outcome M}
  {s s' : State M} {act : Action M} {R a : String} {k : ℕ} {e e' : AgentEntry}

theorem Life.settled_step (hlife : Life s) (hstep : Step s act s') (h : Settled s.shared R) :
    Settled s'.shared R := by
  obtain ⟨run, hr, ht⟩ := h
  obtain ⟨run', hr', rfl | ⟨t, -, -, heff⟩⟩ := hlife.run_of_step hstep hr
  · exact ⟨run', hr', ht⟩
  · exact ⟨run', hr', heff.terminal_mono ht⟩

theorem entry_of_step (hstep : Step s act s') (he : s.shared.agents[a]? = some e) :
    ∃ e', s'.shared.agents[a]? = some e' ∧ (e' = e ∨
      ∃ t, Ran s t (fun env op _ => EntryEffect env s.shared a e op e') act s') := by
  cases hstep with
  | exec hprog hexec =>
    obtain ⟨e', he', heff⟩ := exec_entry hexec he
    exact ⟨e', he', .inr ⟨_, hprog, hexec, heff⟩⟩
  | connect | submit | control => exact ⟨e, he, .inl rfl⟩

theorem entry_new_of_step (hstep : Step s act s') (he : s.shared.agents[a]? = none)
    (he' : s'.shared.agents[a]? = some e') : ∃ t env reg k rest, act = .step t env ∧
      s.tasks t = .registerAgent reg k :: rest ∧ reg.agentId = a ∧
      e' = registeredEntry env s.shared reg k := by
  cases hstep with
  | @exec t env op rest o hprog hexec =>
    obtain ⟨reg, k, rfl, hid, rfl⟩ := exec_entry_new hexec he he'
    exact ⟨t, env, reg, k, rest, rfl, hprog, hid, rfl⟩
  | connect | submit | control => cases he.symm.trans he'

/-! ## Where a reservation goes on registration -/

section

variable {reg : Register}

theorem activeRun_registeredEntry : (registeredEntry env inner reg k).activeRun =
    inner.agents[reg.agentId]?.bind fun e =>
      if e.incarnation = reg.incarnation then e.activeRun else none := by
  simp only [registeredEntry, Agents.carryReservation]
  cases inner.agents[reg.agentId]? with
  | none => rfl
  | some e =>
    by_cases hinc : e.incarnation = reg.incarnation <;> cases hR : e.activeRun <;>
      simp [hinc, hR, apply_ite Prod.fst]

theorem registeredEntry_replay
    (hf : (inner.agents.register reg k env.now).1.followup = .maybeReplayAssignment R) :
    (registeredEntry env inner reg k).activeRun = some R := by
  simp only [Agents.register, registeredEntry, Agents.carryReservation] at hf ⊢
  repeat' split at hf
  all_goals simp_all

theorem registeredEntry_restart
    (hf : (inner.agents.register reg k env.now).1.followup = .terminateParticipation R) :
    (registeredEntry env inner reg k).activeRun = none := by
  simp only [Agents.register, registeredEntry, Agents.carryReservation] at hf ⊢
  repeat' split at hf
  all_goals simp_all

theorem same_of_not_restarted (he : inner.agents[reg.agentId]? = some e)
    (h : (inner.agents.register reg k env.now).1.restarted = false) :
    e.incarnation = reg.incarnation := by
  simpa [Agents.register, he] using h

end

/-! ## Run ids -/

/-- The run id has been given out, and its reservations have been made. -/
structure Minted (s : State M) (R : String) : Prop where
  given : R ∈ s.shared.runIds
  reserved : ∀ sub, .reserveAgents sub ∉ s.tasks (.submit R)

theorem Minted.step (h : Minted s R) (hstep : Step s act s') : Minted s' R := by
  refine ⟨?_, fun sub hsub => ?_⟩
  · rcases step_cases hstep with ⟨t, -, hexec, -⟩ | ⟨t, op, ho⟩
    · exact (exec_counters hexec).2 ▸ h.given
    · exact (ho.runIds R).2 (.inl h.given)
  · rcases ahead_of_step hstep hsub with hold | ⟨rfl, ht⟩ | ⟨-, hexec, hnew⟩
    · exact h.reserved sub hold
    · cases hstep with
      | submit _ hfresh => exact hfresh (TaskId.submit.inj ht ▸ h.given)
    · exact exec_ops hexec _ hnew

theorem Life.minted (h : Life s) (hR : R ∈ s.shared.runs) : Minted s R := by
  refine ⟨?_, fun sub hsub => ?_⟩
  · by_contra hR'
    exact (h.unminted R hR').1 hR
  · obtain ⟨ht, -, hnew⟩ := h.placement hsub
    rw [TaskId.submit.inj ht] at hR
    exact hnew hR

/-! ## Reservations and their release -/

structure Reservations (s : State M) : Prop where
  minted : ∀ (a : String) (e : AgentEntry) (R : String), s.shared.agents[a]? = some e →
    e.activeRun = some R → Minted s R
  release : ∀ t R, .releaseReservations R ∈ s.tasks t → Settled s.shared R

variable {rest : List (Op M)} {op' : Op M}

theorem Life.minted_reserve (h : Life s) {t : TaskId} {sub : Submission M}
    (hprog : s.tasks t = .reserveAgents sub :: rest)
    (hexec : exec env s.shared (.reserveAgents sub) = some o) :
    Minted (s.commit t rest o) sub.runId := by
  obtain ⟨rfl, hsingle, -⟩ := h.head hprog
  have hrest : rest = [] := (List.cons.inj (hprog.symm.trans hsingle)).2
  refine ⟨?_, fun sub' hsub => ?_⟩
  · show sub.runId ∈ o.shared.runIds
    rw [(exec_counters hexec).2]
    by_contra hR
    rw [(h.unminted sub.runId hR).2.1] at hprog
    cases hprog
  · rw [tasks_commit hexec (fun _ _ => nofun) (fun _ => nofun), if_pos rfl, hrest,
      append_nil] at hsub
    exact exec_ops hexec _ hsub

theorem Reservations.minted_step (h : Reservations s) (hlife : Life s) (hstep : Step s act s')
    (he' : s'.shared.agents[a]? = some e') (hR : e'.activeRun = some R) : Minted s' R := by
  cases he : s.shared.agents[a]? with
  | none =>
    obtain ⟨t, env, reg, k, rest, -, -, rfl, rfl⟩ := entry_new_of_step hstep he he'
    rw [activeRun_registeredEntry, he] at hR
    cases hR
  | some e =>
    have hold : e.activeRun = some R → Minted s' R := fun hR => (h.minted a e R he hR).step hstep
    obtain ⟨e₁, he₁, heff⟩ := entry_of_step hstep he
    cases he₁.symm.trans he'
    rcases heff with rfl | ⟨t, hprog, hexec, heff⟩
    · exact hold hR
    · cases heff with
      | same | heartbeat | disconnected | admitted => exact hold hR
      | released => cases hR
      | registered reg k hid =>
        subst hid
        rw [activeRun_registeredEntry, he, bind_some] at hR
        split_ifs at hR
        exact hold hR
      | reserved sub _ =>
        cases hR
        exact hlife.minted_reserve hprog hexec

theorem Reservations.release_step (h : Reservations s) (hlife : Life s) (hstep : Step s act s')
    {t' : TaskId} (hmem : .releaseReservations R ∈ s'.tasks t') : Settled s'.shared R := by
  rcases mem_of_step hstep hmem with hold | hfirst | ⟨hprog, hexec, hnew⟩
  · exact hlife.settled_step hstep (h.release t' R hold)
  · cases hfirst
  · obtain ⟨verdict, rfl⟩ := exec_ops hexec _ hnew
    have hfinal : verdict.isTerminal = true := hlife.verdicts.head hprog
    rcases withState_cases hexec with ⟨-, rfl⟩ | ⟨run, hr, -, rfl⟩
    · cases hnew
    · split_ifs at hnew ⊢ with ht
      · cases hnew
      · exact ⟨run.finalize verdict _, getElem?_modifyRun hr _, hfinal⟩

theorem reservations_of_reachable : (machine M).Reachable s → Reservations s := by
  refine invariant_of_step (fun liveness => ⟨fun a e R he => ?_, fun t R hmem => ?_⟩)
    fun hreach h hstep => ?_
  · cases he
  · cases initial_tasks liveness _ _ hmem
  · have hlife := life_of_reachable hreach
    exact ⟨fun a e R => h.minted_step hlife hstep, fun t R => h.release_step hlife hstep⟩

/-- Process `inc` of agent `a` has been given its share of `R`: while the agent is this process, it
is reserved for the run or the run is over, and once it has been replaced, it is not. -/
def Tied (inner : Inner M) (a inc R : String) : Prop :=
  ∃ e, inner.agents[a]? = some e ∧
    (e.incarnation = inc ∧ (e.activeRun = some R ∨ Settled inner R) ∨
      e.incarnation ≠ inc ∧ e.activeRun ≠ some R)

theorem Tied.step {inc : String} (h : Tied s.shared a inc R) (hreach : (machine M).Reachable s)
    (hminted : Minted s R) (hstep : Step s act s')
    (hback : ∀ t env reg k rest e, act = .step t env → s.tasks t = .registerAgent reg k :: rest →
      reg.agentId = a → s.shared.agents[a]? = some e → e.incarnation ≠ inc →
      reg.incarnation ≠ inc) : Tied s'.shared a inc R := by
  have hlife := life_of_reachable hreach
  have hsettled : Settled s.shared R → Settled s'.shared R := hlife.settled_step hstep
  obtain ⟨e, he, htied⟩ := h
  obtain ⟨e', he', heff⟩ := entry_of_step hstep he
  refine ⟨e', he', ?_⟩
  have hsame : e'.incarnation = e.incarnation → e'.activeRun = e.activeRun →
      e'.incarnation = inc ∧ (e'.activeRun = some R ∨ Settled s'.shared R) ∨
        e'.incarnation ≠ inc ∧ e'.activeRun ≠ some R := by
    intro hi ha
    rw [hi, ha]
    exact htied.imp_left (And.imp_right (Or.imp_right hsettled))
  rcases heff with rfl | ⟨t, hprog, -, heff⟩
  · exact hsame rfl rfl
  · cases heff with
    | same | heartbeat | disconnected | admitted => exact hsame rfl rfl
    | registered reg k hid =>
      subst hid
      by_cases hinc : e.incarnation = reg.incarnation
      · exact hsame hinc.symm (by simp [activeRun_registeredEntry, he, hinc])
      · refine .inr ⟨?_, ?_⟩
        · rcases htied with ⟨rfl, -⟩ | ⟨hne, -⟩
          · exact Ne.symm hinc
          · exact hback t _ reg k _ e rfl hprog rfl he hne
        · simp [activeRun_registeredEntry, he, hinc]
    | released R' hR' =>
      rcases htied with ⟨hi, hR | hR⟩ | ⟨hne, -⟩
      · cases hR'.symm.trans hR
        have hset := (reservations_of_reachable hreach).release t _ (hprog ▸ mem_cons_self)
        exact .inl ⟨hi, .inr (hsettled hset)⟩
      · exact .inl ⟨hi, .inr (hsettled hR)⟩
      · exact .inr ⟨hne, nofun⟩
    | reserved sub hfree =>
      rcases htied with ⟨hi, hR | hR⟩ | ⟨hne, -⟩
      · cases hfree.symm.trans hR
      · exact .inl ⟨hi, .inr (hsettled hR)⟩
      · refine .inr ⟨hne, fun hR => ?_⟩
        have hmem : .reserveAgents sub ∈ s.tasks t := hprog ▸ mem_cons_self
        obtain ⟨rfl, -, -⟩ := hlife.placement hmem
        cases hR
        exact hminted.reserved sub hmem

/-! ## Registration handlers do not overlap -/

/-- The session of a registration that is not done is the agent's session. -/
def Current (s : State M) : Prop :=
  ∀ k, ∀ op ∈ s.tasks (.session k), ∀ a, handles a op = true →
    ∃ e, s.shared.agents[a]? = some e ∧ e.session = k

theorem not_registered_of_handles (hreach : (machine M).Reachable s) {t : TaskId} {reg : Register}
    {j : ℕ} (hguard : spaced s (.step t env) = true)
    (hprog : s.tasks t = .registerAgent reg j :: rest) (hop : op ∈ s.tasks (.session k))
    (hh : handles a op = true) : reg.agentId ≠ a := by
  rintro rfl
  have hsess := sessions_of_reachable hreach
  obtain ⟨k', hk, hreg⟩ := handled_of_reachable hreach _ op hop _ hh
  cases hk
  rw [← registering_iff (hsess.tidy (.session k)),
    not_registering_of_spaced hsess hguard hprog k] at hreg
  cases hreg

theorem entry_stays (hreach : (machine M).Reachable s) (hguard : spaced s act = true)
    (hstep : Step s act s') (he : s.shared.agents[a]? = some e) (hop : op ∈ s.tasks (.session k))
    (hh : handles a op = true) : ∃ e', s'.shared.agents[a]? = some e' ∧
      e'.session = e.session ∧ e'.incarnation = e.incarnation ∧
      ∀ R, e.activeRun = some R → e'.activeRun = some R ∨ Settled s'.shared R := by
  obtain ⟨e', he', heff⟩ := entry_of_step hstep he
  refine ⟨e', he', ?_⟩
  rcases heff with rfl | ⟨t, hprog, -, heff⟩
  · exact ⟨rfl, rfl, fun R hR => .inl hR⟩
  · cases heff with
    | same | heartbeat | disconnected | admitted => exact ⟨rfl, rfl, fun R hR => .inl hR⟩
    | registered reg j hid =>
      exact absurd hid (not_registered_of_handles hreach hguard hprog hop hh)
    | released R' hR' =>
      refine ⟨rfl, rfl, fun R hR => .inr ?_⟩
      cases hR'.symm.trans hR
      exact (life_of_reachable hreach).settled_step hstep
        ((reservations_of_reachable hreach).release t _ (hprog ▸ mem_cons_self))
    | reserved sub hfree => exact ⟨rfl, rfl, fun R hR => nomatch hfree.symm.trans hR⟩

theorem exec_registered {reg : Register} (hexec : exec env inner (.registerAgent reg k) = some o) :
    o.shared.agents[reg.agentId]? = some (registeredEntry env inner reg k) := by
  cases hexec
  exact Std.ExtTreeMap.getElem?_insert_self

theorem Current.step (h : Current s) (hreach : (machine M).Reachable s)
    (hguard : spaced s act = true) (hstep : Step s act s') : Current s' := by
  have hkeep : ∀ {k op a}, op ∈ s.tasks (.session k) →
      handles a op = true → ∃ e, s'.shared.agents[a]? = some e ∧ e.session = k := by
    intro k op a hop hh
    obtain ⟨e, he, hk⟩ := h k op hop a hh
    obtain ⟨e', he', hk', -⟩ := entry_stays hreach hguard hstep he hop hh
    exact ⟨e', he', hk'.trans hk⟩
  intro k op' hop' a hh
  rcases mem_of_step hstep hop' with hold | hfirst | ⟨hprog, hexec, hnew⟩
  · exact hkeep hold hh
  · cases op' <;> simp [handles, isFirst] at hh hfirst
  · rcases handles_of_exec hexec hnew hh with hh | ⟨reg, j, rfl, rfl⟩
    · exact hkeep (hprog ▸ mem_cons_self) hh
    · obtain ⟨ht, -⟩ := (sessions_of_reachable hreach).registering hprog rfl
      cases ht
      exact ⟨_, exec_registered hexec, rfl⟩

theorem current_of_reachable
    (h : ((machine M).guarded fun s act => spaced s act = true).Reachable s) : Current s := by
  refine guarded_invariant (fun liveness k op hop a hh => ?_)
    (fun hreach hguard h => h.step hreach.of_guarded hguard) h
  rw [initial_tasks liveness _ op hop] at hh
  cases hh

/-! ## Followups that presuppose the reservation -/

def Holds (inner : Inner M) (a R : String) : Prop :=
  ∃ e, inner.agents[a]? = some e ∧ e.activeRun = some R

/-- The followups of a registration that replay a run. -/
def replays (a R : String) : Op M → Bool
  | .replayAssignment a' R' | .replayDone a' R' | .replayLost a' R' | .sendAssignment a' R'
  | .resumeRun a' R' | .resumeDone a' R' | .resumeLost a' R' | .resumePhase a' R' =>
    a' == a && R' == R
  | _ => false

theorem handles_of_replays (h : replays a R op = true) : handles a op = true := by
  cases op <;> simp_all [replays, handles]

theorem replays_of_exec (h : exec env inner op = some o) (hop' : op' ∈ o.ops)
    (hr : replays a R op' = true) : replays a R op = true ∨
      ∃ reg k, op = .registerAgent reg k ∧ reg.agentId = a ∧
        ((inner.agents.register reg k env.now).1.followup = .maybeReplayAssignment R ∨
          reg.resumeRunId = R ∧ R ≠ "" ∧
            (inner.agents.register reg k env.now).1.restarted = false) := by
  have horigin := exec_ops h op' hop'
  cases op' <;> simp only [replays, Bool.false_eq_true] at hr
  all_goals obtain ⟨rfl, rfl⟩ := pair_of_beq hr
  case replayAssignment a' R' =>
    obtain ⟨reg, k, hop, hid, hf⟩ := horigin
    exact .inr ⟨reg, k, hop, hid, .inl hf⟩
  case resumeRun a' R' =>
    obtain ⟨reg, k, hop, hid, hresume⟩ := horigin
    exact .inr ⟨reg, k, hop, hid, .inr hresume⟩
  case replayDone | replayLost | resumePhase =>
    obtain rfl := horigin
    exact .inl hr
  case resumeDone | resumeLost =>
    obtain ⟨rfl, -⟩ := horigin
    exact .inl hr
  case sendAssignment => rcases horigin with rfl | rfl <;> exact .inl hr

def Kept (s : State M) : Prop :=
  ∀ t, ∀ op ∈ s.tasks t, ∀ a R, replays a R op = true → Holds s.shared a R ∨ Settled s.shared R

theorem Kept.step (h : Kept s) (hreach : (machine M).Reachable s)
    (hguard : spaced s act = true) (hstep : Step s act s')
    (hclaim : ∀ t env reg k rest, act = .step t env → s.tasks t = .registerAgent reg k :: rest →
      reg.resumeRunId ≠ "" → (s.shared.agents.register reg k env.now).1.restarted = false →
      Holds s.shared reg.agentId reg.resumeRunId ∨ Settled s.shared reg.resumeRunId) :
    Kept s' := by
  have hsettled : ∀ {R}, Settled s.shared R → Settled s'.shared R :=
    (life_of_reachable hreach).settled_step hstep
  have hkeep : ∀ {t op a R}, op ∈ s.tasks t →
      replays a R op = true → Holds s'.shared a R ∨ Settled s'.shared R := by
    intro t op a R hop hr
    have hh := handles_of_replays hr
    obtain ⟨k, rfl, -⟩ := handled_of_reachable hreach t op hop a hh
    rcases h _ op hop a R hr with ⟨e, he, hR⟩ | hR
    · obtain ⟨e', he', -, -, hrun⟩ := entry_stays hreach hguard hstep he hop hh
      exact (hrun R hR).imp_left fun hR' => ⟨e', he', hR'⟩
    · exact .inr (hsettled hR)
  intro t op' hop' a R hr
  rcases mem_of_step hstep hop' with hold | hfirst | ⟨hprog, hexec, hnew⟩
  · exact hkeep hold hr
  · cases op' <;> simp [replays, isFirst] at hr hfirst
  · rcases replays_of_exec hexec hnew hr with hr | ⟨reg, j, rfl, rfl, hcases⟩
    · exact hkeep (hprog ▸ mem_cons_self) hr
    · have hentry := exec_registered hexec
      rcases hcases with hf | ⟨rfl, hne, hrestarted⟩
      · exact .inl ⟨_, hentry, registeredEntry_replay hf⟩
      · rcases hclaim _ _ reg j _ rfl hprog hne hrestarted with ⟨e, he, hR⟩ | hR
        · have hinc := same_of_not_restarted he hrestarted
          exact .inl ⟨_, hentry, by simp [activeRun_registeredEntry, he, hinc, hR]⟩
        · exact .inr (hsettled hR)

/-! ## Runs that count on an agent -/

/-- The run accounts for the agent, holds its reservation, or is about to be told of its restart. -/
def Backed (s : State M) (a R : String) : Prop :=
  Accounted s.shared a R ∨ ∃ e, s.shared.agents[a]? = some e ∧
    (e.activeRun = some R ∨ ∃ op ∈ s.tasks (.session e.session), restarts a R op = true)

theorem Settled.accounted (h : Settled inner R) : Accounted inner a R := by
  obtain ⟨run, hr, ht⟩ := h
  exact ⟨run, hr, .inr (.inl ht)⟩

theorem Holds.backed (h : Holds s.shared a R) : Backed s a R := by
  obtain ⟨e, he, hR⟩ := h
  exact .inr ⟨e, he, .inl hR⟩

theorem backed_of_accounted (hlife : Life s) (hkept : Kept s) (hstep : Step s act s')
    (h : Accounted s.shared a R) : Backed s' a R := by
  obtain ⟨run, hr, hacc⟩ := h
  obtain ⟨run', hr', heff⟩ := hlife.run_of_step hstep hr
  rcases heff with rfl | ⟨t, @⟨_, op, _, _, hprog, hexec, heff⟩⟩
  · exact .inl ⟨run', hr', hacc⟩
  · by_cases hop : op = .resumeLost a R
    · subst hop
      have hreplays : replays a R (.resumeLost a R : Op M) = true := by
        simp [replays]
      rcases hkept t _ (hprog ▸ mem_cons_self) a R hreplays with ⟨e, he, hR⟩ | hset
      · obtain ⟨e', he', heff⟩ := exec_entry hexec he
        cases heff
        exact Holds.backed ⟨e, he', hR⟩
      · exact .inl (Settled.accounted (hlife.settled_step hstep hset))
    · exact .inl ⟨run', hr', hacc.imp heff.failure_mono (Or.imp heff.terminal_mono
        (Or.imp heff.done_mono (heff.lost_mono hop)))⟩

theorem backed_of_holds (hreach : (machine M).Reachable s) (hstep : Step s act s')
    (h : Holds s.shared a R) : Backed s' a R := by
  obtain ⟨e, he, hR⟩ := h
  obtain ⟨e', he', rfl | ⟨t, hprog, hexec, heff⟩⟩ := entry_of_step hstep he
  · exact Holds.backed ⟨e', he', hR⟩
  · cases heff with
    | same | heartbeat | disconnected | admitted => exact Holds.backed ⟨_, he', hR⟩
    | reserved sub hfree => cases hfree.symm.trans hR
    | released R' hR' =>
      cases hR'.symm.trans hR
      exact .inl (Settled.accounted ((life_of_reachable hreach).settled_step hstep
        ((reservations_of_reachable hreach).release t _ (hprog ▸ mem_cons_self))))
    | registered reg k hid =>
      subst hid
      by_cases hinc : e.incarnation = reg.incarnation
      · exact Holds.backed ⟨_, he', by simp [activeRun_registeredEntry, he, hinc, hR]⟩
      · refine .inr ⟨_, he', .inr ⟨.terminateParticipation reg.agentId R, ?_, ?_⟩⟩
        · obtain ⟨rfl, rfl⟩ := (sessions_of_reachable hreach).registering hprog rfl
          show _ ∈ (s.commit _ _ _).tasks (.session k)
          rw [commit_tasks_session hexec k, if_pos rfl, restarted_ops hexec he hinc hR]
          simp
        · simp [restarts]

theorem Backed.step (h : Backed s a R) (hreach : (machine M).Reachable s) (hkept : Kept s)
    (hguard : spaced s act = true) (hR : R ∈ s.shared.runs) (hstep : Step s act s') :
    Backed s' a R := by
  rcases h with hacc | ⟨e, he, hrun | ⟨op, hop, hres⟩⟩
  · exact backed_of_accounted (life_of_reachable hreach) hkept hstep hacc
  · exact backed_of_holds hreach hstep ⟨e, he, hrun⟩
  · obtain ⟨e', he', hsession, -, -⟩ :=
      entry_stays hreach hguard hstep he hop (handles_of_restarts hres)
    rcases restarts_step (sessions_of_reachable hreach) hR hstep hop hres with hahead | hacc
    · exact .inr ⟨e', he', .inr (hsession ▸ hahead)⟩
    · exact .inl hacc

/-! ## Readiness -/

def claimsReady (a R : String) : Op M → Bool
  | .applyAgentMessage rc (.assignmentReady R' _) => rc.agentId == a && R' == R
  | .markReady a' R' _ => a' == a && R' == R
  | _ => false

/-- The agent is ready for the run, or a report of that has been admitted. -/
def Readying (s : State M) (a R : String) : Prop :=
  (∃ run, s.shared.runs[R]? = some run ∧ run.prep.phases[a]? = some .ready) ∨
    ∃ t, ∃ op ∈ s.tasks t, claimsReady a R op = true

theorem session_of_applied {msg : AgentMessage (AgentMsg M.Bytes)} {rc : Received}
    {m : AgentMsg M.Bytes} (hexec : exec env inner (.admitMessage a k msg) = some o)
    (hop : .applyAgentMessage rc m ∈ o.ops) :
    ∃ e, inner.agents[a]? = some e ∧ e.session = k := by
  by_contra hne
  have hfence : ∀ f, inner.agents.fence a = some f → f.session ≠ k := by
    intro f hf hs
    obtain ⟨e, he, rfl⟩ := map_eq_some_iff.1 hf
    exact hne ⟨e, he, hs⟩
  have hstale : inner.agents.admitMessage a k msg.seq env.now =
      ({ verdict := .stale, ack := none, gap := false }, inner.agents) :=
    Agents.admitMessage_stale hfence
  cases hexec
  unfold admitMessage at hop
  simp only [hstale] at hop
  simp at hop

/-- Readiness comes from a report that is admitted from the agent's session. -/
theorem readying_cases (hstep : Step s act s') (h : Readying s' a R) :
    Readying s a R ∨ ∃ t env k msg i rest e, act = .step t env ∧
      s.tasks t = .admitMessage a k msg :: rest ∧ msg.msg = .assignmentReady R i ∧
      s.shared.agents[a]? = some e ∧ e.session = k := by
  rcases h with ⟨run', hr', hready⟩ | ⟨t', op', hop', hclaim⟩
  · refine .inl ?_
    rcases run_of_step hstep hr' with
      hr | ⟨t, hprog, -, ⟨run, hr, heff⟩ | ⟨sub, selected, -, -, rfl⟩⟩
    · exact .inl ⟨run', hr, hready⟩
    · cases heff
      case markReady b i _ _ =>
        by_cases hb : b = a
        · subst hb
          exact .inr ⟨t, _, hprog ▸ mem_cons_self, by simp [claimsReady]⟩
        · rw [Std.ExtTreeMap.getElem?_insert, if_neg (by simpa using hb)] at hready
          exact .inl ⟨run, hr, hready⟩
      all_goals exact .inl ⟨run, hr, hready⟩
    · rw [phases_submitted] at hready
      split_ifs at hready
      cases hready
  · rcases mem_of_step hstep hop' with hold | hfirst | ⟨hprog, hexec, hnew⟩
    · exact .inl (.inr ⟨t', op', hold, hclaim⟩)
    · cases op' <;> simp [claimsReady, isFirst] at hclaim hfirst
    · have horigin := exec_ops hexec op' hnew
      cases op' <;> simp only [claimsReady, Bool.false_eq_true] at hclaim
      case applyAgentMessage rc m =>
        cases m <;> simp only [Bool.false_eq_true] at hclaim
        case assignmentReady R' i =>
          obtain ⟨rfl, rfl⟩ := pair_of_beq hclaim
          obtain ⟨msg, rfl, hm, -⟩ := horigin
          obtain ⟨e, he, hk⟩ := session_of_applied hexec hnew
          exact .inr ⟨t', _, rc.session, msg, i, _, e, rfl, hprog, hm, he, hk⟩
      case markReady a' R' i =>
        obtain ⟨rfl, rfl⟩ := pair_of_beq hclaim
        obtain ⟨rc, rfl, rfl, -⟩ := horigin
        exact .inl (.inr ⟨t', _, hprog ▸ mem_cons_self, by simp [claimsReady]⟩)

/-- An agent that is being restarted is not ready for the run it has been reserved for since. -/
def Unready (s : State M) : Prop :=
  ∀ (a : String) (e : AgentEntry) (R R' : String), s.shared.agents[a]? = some e →
    (∃ op ∈ s.tasks (.session e.session), restarts a R' op = true) →
    e.activeRun = some R → ¬Readying s a R

theorem restarts_of_exec (h : exec env inner op = some o) (hop' : op' ∈ o.ops)
    (hres : restarts a R op' = true) : restarts a R op = true ∨
      ∃ reg k, op = .registerAgent reg k ∧ reg.agentId = a ∧
        (inner.agents.register reg k env.now).1.followup = .terminateParticipation R := by
  have horigin := exec_ops h op' hop'
  cases op' <;> simp only [restarts, Bool.false_eq_true] at hres
  case recordPrepFailure R' reason verdict after =>
    cases after <;> simp only [Bool.false_eq_true] at hres
    case restarted =>
      obtain ⟨-, rfl⟩ := horigin
      exact .inl hres
  all_goals obtain ⟨rfl, rfl⟩ := pair_of_beq hres
  case terminateParticipation a' R' =>
    obtain ⟨reg, k, hop, hid, hf⟩ := horigin
    exact .inr ⟨reg, k, hop, hid, hf⟩
  case restartedState =>
    obtain ⟨-, reason, verdict, rfl⟩ := horigin
    exact .inl hres
  case restartedDone =>
    obtain rfl := horigin
    exact .inl hres
  case restartedLost =>
    obtain ⟨rfl, -⟩ := horigin
    exact .inl hres

theorem restarts_of_step (hreach : (machine M).Reachable s) (hstep : Step s act s')
    (hop' : op' ∈ s'.tasks (.session k)) (hres : restarts a R op' = true) :
    (∃ op ∈ s.tasks (.session k), restarts a R op = true) ∨
      ∃ env reg, act = .step (.session k) env ∧ s.tasks (.session k) = [.registerAgent reg k] ∧
        reg.agentId = a ∧
        (s.shared.agents.register reg k env.now).1.followup = .terminateParticipation R := by
  rcases mem_of_step hstep hop' with hold | hfirst | ⟨hprog, hexec, hnew⟩
  · exact .inl ⟨op', hold, hres⟩
  · have hh := handles_of_restarts hres
    cases op' <;> simp [handles, isFirst] at hh hfirst
  · rcases restarts_of_exec hexec hnew hres with hres | ⟨reg, k', rfl, hid, hf⟩
    · exact .inl ⟨_, hprog ▸ mem_cons_self, hres⟩
    · obtain ⟨hk, rfl⟩ := (sessions_of_reachable hreach).registering hprog rfl
      cases hk
      exact .inr ⟨_, reg, rfl, hprog, hid, hf⟩

theorem restarts_unique (h : (machine M).Reachable s) {R' : String}
    (hop : op ∈ s.tasks (.session k)) (hop' : op' ∈ s.tasks (.session k))
    (hres : restarts a R op = true) (hres' : restarts a R' op' = true) : R = R' := by
  induction h generalizing op op' with
  | init h₀ =>
    obtain ⟨liveness, rfl⟩ := h₀
    rw [initial_tasks liveness _ op hop] at hres
    cases hres
  | step hreach hnext ih =>
    have hstep := step_of_next hnext
    rcases restarts_of_step hreach hstep hop hres with
      ⟨op₁, hop₁, hres₁⟩ | ⟨env, reg, rfl, hprog, rfl, hf⟩
    · rcases restarts_of_step hreach hstep hop' hres' with
        ⟨op₂, hop₂, hres₂⟩ | ⟨env, reg, rfl, hprog, rfl, hf⟩
      · exact ih hop₁ hop₂ hres₁ hres₂
      · rw [hprog, mem_singleton] at hop₁
        subst hop₁
        cases hres₁
    · rcases restarts_of_step hreach hstep hop' hres' with
        ⟨op₂, hop₂, hres₂⟩ | ⟨env', reg', hact, hprog', -, hf'⟩
      · rw [hprog, mem_singleton] at hop₂
        subst hop₂
        cases hres₂
      · cases hact
        cases hprog.symm.trans hprog'
        cases hf.symm.trans hf'
        rfl

theorem not_admitting (hreach : (machine M).Reachable s) (hop : op ∈ s.tasks (.session k))
    (hh : handles a op = true) {b : String} {j : ℕ} {msg : AgentMessage (AgentMsg M.Bytes)} :
    s.tasks (.session k) ≠ .admitMessage b j msg :: rest := by
  intro hprog
  obtain ⟨k', hk, ops, hne, hp, hquiet⟩ := handled_of_reachable hreach _ op hop a hh
  rw [hprog] at hp
  cases ops with
  | nil => exact hne rfl
  | cons op₀ ops =>
    cases hp
    exact hquiet _ mem_cons_self

theorem Unready.step (h : Unready s) (hreach : (machine M).Reachable s) (hcurrent : Current s)
    (hknown : ∀ a R, Readying s a R → R ∈ s.shared.runs) (hguard : spaced s act = true)
    (hstep : Step s act s') : Unready s' := by
  have hlife := life_of_reachable hreach
  intro a e' R R' he' ⟨op', hop', hres'⟩ hR hready
  -- the restart was under way before the step
  have hold : ∃ op ∈ s.tasks (.session e'.session), restarts a R' op = true := by
    rcases restarts_of_step hreach hstep hop' hres' with hold | ⟨env, reg, rfl, hprog, rfl, hf⟩
    · exact hold
    · exfalso
      obtain ⟨_, hexec', rfl⟩ := exec_of_step hstep hprog
      have hentry := some.inj ((exec_registered hexec').symm.trans he')
      rw [← hentry, registeredEntry_restart hf] at hR
      cases hR
  obtain ⟨op, hop, hres⟩ := hold
  have hh := handles_of_restarts hres
  obtain ⟨e, he, hk⟩ := hcurrent _ op hop a hh
  have hready₀ : Readying s a R := by
    rcases readying_cases hstep hready with hready |
      ⟨t, env, k, msg, i, rest, e₀, rfl, hprog, -, he₀, hk₀⟩
    · exact hready
    · exfalso
      cases he.symm.trans he₀
      obtain ⟨k', rfl, rfl, -⟩ :=
        session_of_head (sessions_of_reachable hreach).tidy hprog fun hq => hq
      rw [← hk, hk₀] at hop
      exact not_admitting hreach hop hh hprog
  by_cases hR₀ : e.activeRun = some R
  · exact h a e R R' he ⟨op, hk ▸ hop, hres⟩ hR₀ hready₀
  · obtain ⟨e₁, he₁, heff⟩ := entry_of_step hstep he
    cases he₁.symm.trans he'
    rcases heff with rfl | ⟨t, hprog, -, heff⟩
    · exact hR₀ hR
    · cases heff with
      | same | heartbeat | disconnected | admitted => exact hR₀ hR
      | released => cases hR
      | registered reg k hid => exact not_registered_of_handles hreach hguard hprog hop hh hid
      | reserved sub _ =>
        cases hR
        exact (hlife.head hprog).2.2 (hknown a _ hready₀)

/-! ## Active participants -/

def Active (inner : Inner M) (a R : String) : Prop :=
  ∃ run ∈ inner.runs[R]?, (run.state = .running ∨ run.state = .stopping) ∧ a ∈ run.assigned ∧
    run.done.contains a = false ∧ a ∉ run.lost

instance (inner : Inner M) (a R : String) : Decidable (Active inner a R) :=
  inferInstanceAs (Decidable (∃ _ ∈ _, _))

theorem unstarted_of_failed
    (h : ((machine M).guarded fun s act => lawful s act = true).Reachable s)
    {run : ControllerRun M} (hr : s.shared.runs[R]? = some run)
    (hf : run.prep.failure.isSome = true) : run.startUnixMs = none := by
  induction h generalizing run with
  | init h₀ =>
    obtain ⟨liveness, rfl⟩ := h₀
    cases hr
  | @step s₁ act s₂ hreach hnext ih =>
    have hstartable := startable_of_reachable hreach
    rcases run_of_step (step_of_next (Machine.guarded_next.1 hnext).2) hr with
      hr | ⟨t, hprog, -, ⟨run₀, hr₀, heff⟩ | ⟨sub, selected, -, -, rfl⟩⟩
    · exact ih hr hf
    · have hold := ih hr₀
      cases heff
      case recordPrepFailure hp =>
        by_contra hstart
        obtain ⟨t, ht⟩ := ne_none_iff_exists'.1 hstart
        exact ((hstartable.runs R run₀ hr₀).started t ht).1 hp
      case commitStart hnone _ => simp [ControllerRun.commitStart, hnone] at hf
      all_goals exact hold hf
    · rfl

theorem Active.readying
    (h : ((machine M).guarded fun s act => lawful s act = true).Reachable s)
    (ha : Active s.shared a R) : Readying s a R ∧ ¬Accounted s.shared a R := by
  obtain ⟨run, hr, hstate, hassigned, hdone, hlost⟩ := ha
  have hr : s.shared.runs[R]? = some run := hr
  have hstartable := startable_of_reachable h
  have hlive : run.state.isTerminal = false := by
    rcases hstate with he | he <;> rw [he] <;> rfl
  have hstart : run.startUnixMs ≠ none := by
    intro hstart
    rcases (hstartable.runs R run hr).waiting hstart with hp | ht
    · rw [hp] at hstate
      simp at hstate
    · cases hlive.symm.trans ht
  refine ⟨.inl ⟨run, hr, (hstartable.life.phased R run hr).ready hstart a hassigned⟩, ?_⟩
  rintro ⟨run', hr', hacc⟩
  cases hr.symm.trans hr'
  rcases hacc with hf | ht | hd | hl
  · exact hstart (unstarted_of_failed h hr hf)
  · cases hlive.symm.trans ht
  · cases hdone.symm.trans hd
  · exact hlost hl

theorem release_keeps_others {R' : String}
    (hexec : exec env inner (.releaseReservations R) = some o)
    (he : inner.agents[a]? = some e) (hR : e.activeRun = some R') (hne : R' ≠ R) :
    o.shared.agents[a]? = some e := by
  obtain ⟨e', he', heff⟩ := exec_entry hexec he
  cases heff with
  | same => exact he'
  | released _ hR' => exact absurd (some.inj (hR.symm.trans hR')) hne

end Controller

end Loadr
