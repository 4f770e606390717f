import Loadr.Agent.Reports
import Loadr.Deployment

/-!
# Sessions and their processes

A session belongs to the process that opened it, and the process keeps its agent id and incarnation
for life.  What a session handles as a message of an agent, a process of that agent has sent
(`Deployment.Voiced`).
-/

namespace Loadr

open Controller List

variable {M : Metering}

namespace Deployment

variable {d d' : Deployment M} {act : Action M} {i k : ℕ} {p : Agent.Process M.Bytes}
  {s s' : Controller.State M}

/-- Session `k` has been opened by process `i`, which is `p`. -/
structure Opened (d : Deployment M) (k i : ℕ) (p : Agent.Process M.Bytes) : Prop where
  owner : d.owner k = some i
  process : d.processes[i]? = some p

theorem process_of_move (hmove : Move d act d') (hp : d.processes[i]? = some p) :
    ∃ p', d'.processes[i]? = some p' ∧ p'.identity = p.identity ∧
      (∀ R, p.Assigned R → p'.Assigned R) ∧ ∀ m ∈ p.sent, m ∈ p'.sent := by
  cases hmove with
  | launch =>
    refine ⟨p, ?_, rfl, fun _ h => h, fun _ h => h⟩
    obtain ⟨hlt, -⟩ := List.getElem?_eq_some_iff.1 hp
    exact (getElem?_append_left hlt).trans hp
  | @agent j q q' _ hq hq' _ =>
    by_cases hj : j = i
    · subst hj
      cases hq.symm.trans hp
      obtain ⟨hlt, -⟩ := List.getElem?_eq_some_iff.1 hp
      exact ⟨q', getElem?_set_self hlt, Agent.Process.identity_next hq', fun _ h => h.next hq',
        fun _ h => Agent.Process.sent_next hq' h⟩
    · exact ⟨p, (getElem?_set_ne hj).trans hp, rfl, fun _ h => h, fun _ h => h⟩
  | connect | controller => exact ⟨p, hp, rfl, fun _ h => h, fun _ h => h⟩

/-- Processes are told apart by their incarnations, and sessions are opened in order. -/
structure Distinct (d : Deployment M) : Prop where
  incarnation : ∀ (i j : ℕ) (p q : Agent.Process M.Bytes), d.processes[i]? = some p →
    d.processes[j]? = some q → p.identity.2 = q.identity.2 → i = j
  unowned : ∀ k, d.controller.shared.sessionCounter < k → d.owner k = none

theorem counter_of_step {a : Controller.Action M} (hstep : Step s a s') :
    (∃ reg, a = .connect reg ∧ s'.shared.sessionCounter = s.shared.sessionCounter + 1) ∨
      (∀ reg, a ≠ .connect reg) ∧ s'.shared.sessionCounter = s.shared.sessionCounter := by
  cases hstep with
  | exec hprog hexec => exact .inr ⟨fun _ => nofun, (exec_counters hexec).1⟩
  | connect reg => exact .inl ⟨reg, rfl, rfl⟩
  | submit | control => exact .inr ⟨fun _ => nofun, rfl⟩

theorem Distinct.move (h : Distinct d) (hmove : Move d act d') : Distinct d' where
  incarnation i j p q hp hq hinc := by
    have hcases : ∀ {i p}, d'.processes[i]? = some p →
        (∃ p₀, d.processes[i]? = some p₀ ∧ p.identity.2 = p₀.identity.2) ∨
          i = d.processes.length ∧ ∀ p₀ ∈ d.processes, p₀.identity.2 ≠ p.identity.2 := by
      intro i p hp
      cases succeeds_of_move hmove hp with
      | launched _ _ _ _ hi hfresh => exact .inr ⟨hi, hfresh⟩
      | kept hp => exact .inl ⟨p, hp, rfl⟩
      | stepped hp hp' _ => exact .inl ⟨_, hp, by rw [Agent.Process.identity_next hp']⟩
    rcases hcases hp with ⟨p₀, hp₀, he⟩ | ⟨rfl, hfresh⟩
    · rcases hcases hq with ⟨q₀, hq₀, he'⟩ | ⟨rfl, hfresh⟩
      · exact h.incarnation i j p₀ q₀ hp₀ hq₀ (he.symm.trans (hinc.trans he'))
      · exact absurd (he.symm.trans hinc) (hfresh p₀ (mem_of_getElem? hp₀))
    · rcases hcases hq with ⟨q₀, hq₀, he'⟩ | ⟨rfl, -⟩
      · exact absurd (he'.symm.trans hinc.symm) (hfresh q₀ (mem_of_getElem? hq₀))
      · rfl
  unowned k hk := by
    cases hmove with
    | launch | agent => exact h.unowned k hk
    | @connect i p s _ hs =>
      obtain ⟨-, -, hcounter⟩ | ⟨hne, -⟩ := counter_of_step (step_of_next hs)
      · have hk' : s.shared.sessionCounter < k := hk
        show Function.update d.owner _ _ k = none
        rw [Function.update_of_ne (by omega)]
        exact h.unowned k (by omega)
      · cases hne _ rfl
    | @controller a s hact _ _ hs =>
      have hk' : s.shared.sessionCounter < k := hk
      obtain ⟨reg, rfl, -⟩ | ⟨-, hcounter⟩ := counter_of_step (step_of_next hs)
      · exact hact.elim
      · exact h.unowned k (by omega)

theorem distinct_of_reachable (h : (machine M).Reachable d) : Distinct d := by
  refine h.invariant ?_ ?_
  · rintro d₀ ⟨liveness, rfl⟩
    exact ⟨fun i j p q hp => by simp [initial] at hp, fun k _ => rfl⟩
  · intro d₁ act d₂ _ h₁ hnext
    exact h₁.move (move_of_next hnext)

theorem owner_of_move (h : Distinct d) (hmove : Move d act d') (hk : d.owner k = some i) :
    d'.owner k = some i := by
  cases hmove with
  | launch | agent | controller => exact hk
  | @connect j p s _ hs =>
    show Function.update d.owner _ _ k = some i
    rw [Function.update_of_ne]
    · exact hk
    · rintro rfl
      obtain ⟨-, -, hcounter⟩ | ⟨hne, -⟩ := counter_of_step (step_of_next hs)
      · cases (h.unowned _ (by omega)).symm.trans hk
      · exact hne _ rfl

theorem Opened.move (h : Opened d k i p) (hd : Distinct d) (hmove : Move d act d') :
    ∃ p', Opened d' k i p' ∧ p'.identity = p.identity ∧ ∀ R, p.Assigned R → p'.Assigned R := by
  obtain ⟨p', hp', hid, hassigned, -⟩ := process_of_move hmove h.process
  exact ⟨p', ⟨owner_of_move hd hmove h.owner, hp'⟩, hid, hassigned⟩

/-! ## Known runs -/

/-- Agents are assigned runs the controller knows. -/
structure Known (d : Deployment M) : Prop where
  heard : ∀ p ∈ d.processes, ∀ R, p.Assigned R → R ∈ d.controller.shared.runs
  queued : ∀ k x, .msg (.assignment x) ∈ d.controller.shared.downlinks k →
    x.runId ∈ d.controller.shared.runs
  ahead : ∀ t k x, .send k (.msg (.assignment x)) ∈ d.controller.tasks t →
    x.runId ∈ d.controller.shared.runs

theorem mem_runs_of_step {R : String} {ca : Controller.Action M} (hstep : Step s ca s')
    (hR : R ∈ s.shared.runs) : R ∈ s'.shared.runs := by
  cases hstep with
  | exec _ hexec => exact exec_mem_runs hexec hR
  | connect | submit | control => exact hR

theorem assignment_of_step {ca : Controller.Action M} {x : Assignment} (hstep : Step s ca s')
    (hx : .msg (.assignment x) ∈ s'.shared.downlinks k) :
    .msg (.assignment x) ∈ s.shared.downlinks k ∨
      ∃ t, .send k (.msg (.assignment x)) ∈ s.tasks t := by
  cases hstep with
  | exec hprog hexec =>
    rcases exec_queued hexec hx with hx | ⟨rfl, -⟩ | ⟨a, c, -, he⟩ | ⟨seq, he⟩
    · exact .inl hx
    · exact .inr ⟨_, hprog ▸ mem_cons_self⟩
    · cases he
    · cases he
  | connect reg =>
    rcases mem_enqueue.1 hx with hx | ⟨-, he⟩
    · exact .inl hx
    · cases he
  | submit | control => exact .inl hx

theorem Known.controller (h : Known d) {ca : Controller.Action M}
    (hnext : Controller.next d.controller ca = some s) (owner : ℕ → Option ℕ) :
    Known { d with controller := s, owner := owner } := by
  have hstep := step_of_next hnext
  refine ⟨fun p hp R hR => mem_runs_of_step hstep (h.heard p hp R hR), fun k x hx => ?_, ?_⟩
  · refine mem_runs_of_step hstep ?_
    rcases assignment_of_step hstep hx with hx | ⟨t, hx⟩
    · exact h.queued k x hx
    · exact h.ahead t k x hx
  · intro t k x hx
    show x.runId ∈ s.shared.runs
    rcases ahead_of_step hstep hx with hold | hbegins | ⟨hprog, hexec, hnew⟩
    · exact mem_runs_of_step hstep (h.ahead t k x hold)
    · exact hbegins.elim
    · rcases exec_ops hexec _ hnew with ⟨a, run, -, -, hr, -⟩ | ⟨sub, selected, rfl, hR, -⟩
      · exact mem_runs_of_step hstep (Std.ExtTreeMap.mem_iff_isSome_getElem?.2 (hr ▸ rfl))
      · cases hexec
        rw [hR]
        exact Std.ExtTreeMap.mem_insert_self

theorem Known.move (h : Known d) (hmove : Move d act d') : Known d' := by
  have hheard : ∀ q ∈ d'.processes, ∀ R, q.Assigned R → R ∈ d.controller.shared.runs := by
    rintro q hq R ⟨x, hx, rfl⟩
    obtain ⟨i, hi⟩ := mem_iff_getElem?.1 hq
    cases succeeds_of_move hmove hi with
    | launched => cases hx
    | kept hp => exact h.heard q (mem_of_getElem? hp) _ ⟨x, hx, rfl⟩
    | stepped hp hp' hprompt =>
      rcases hprompt.heard hp' hx with hx | ⟨k, -, hk⟩
      · exact h.heard _ (mem_of_getElem? hp) _ ⟨x, hx, rfl⟩
      · exact h.queued k x hk
  cases hmove with
  | launch | agent => exact { h with heard := hheard }
  | connect _ hs => exact h.controller hs _
  | controller _ _ _ hs => exact h.controller hs _

theorem known_of_reachable (h : (machine M).Reachable d) : Known d := by
  refine h.invariant ?_ fun d₁ act d₂ _ h₁ hnext => h₁.move (move_of_next hnext)
  rintro d₀ ⟨liveness, rfl⟩
  refine ⟨fun _ => nofun, fun _ _ => nofun, fun t k x hx => ?_⟩
  cases initial_tasks liveness t _ hx

/-! ## Messages and their senders -/

/-- Session `k` is one of agent `a`, and everything in `said` has been sent by its process. -/
def Speaks (d : Deployment M) (k : ℕ) (a : String) (said : List (AgentMsg M.Bytes)) : Prop :=
  ∃ i p, Opened d k i p ∧ p.agentId = a ∧ ∀ m ∈ said, m ∈ p.sent

theorem Speaks.move {a : String} {said : List (AgentMsg M.Bytes)} (h : Speaks d k a said)
    (hd : Distinct d) (hmove : Move d act d') : Speaks d' k a said := by
  obtain ⟨i, p, hopen, ha, hsaid⟩ := h
  obtain ⟨p', hp', hid, -, hsent⟩ := process_of_move hmove hopen.process
  refine ⟨i, p', ⟨owner_of_move hd hmove hopen.owner, hp'⟩, ?_, fun m hm => hsent m (hsaid m hm)⟩
  exact (congrArg Prod.fst hid).trans ha

/-- Who speaks in an operation of a session. -/
def Voice (d : Deployment M) : Op M → Prop
  | .registerAgent reg k => Speaks d k reg.agentId []
  | .pump a k => Speaks d k a []
  | .admitMessage a k msg => Speaks d k a [msg.msg]
  | .applyAgentMessage rc m => Speaks d rc.session rc.agentId [m]
  | _ => True

theorem Voice.move {op : Op M} (h : Voice d op) (hd : Distinct d) (hmove : Move d act d') :
    Voice d' op := by
  cases op with
  | registerAgent | pump | admitMessage | applyAgentMessage => exact Speaks.move h hd hmove
  | _ => trivial

def Voiced (d : Deployment M) : Prop := ∀ t, ∀ op ∈ d.controller.tasks t, Voice d op

theorem Speaks.silent {a : String} {said : List (AgentMsg M.Bytes)} (h : Speaks d k a said) :
    Speaks d k a [] := by
  obtain ⟨i, p, hopen, ha, -⟩ := h
  exact ⟨i, p, hopen, ha, forall_mem_nil _⟩

theorem voice_of_exec {env : Env M} {op op' : Op M} {o : Outcome M} {inner : Inner M}
    (h : Voice d op) (hexec : exec env inner op = some o) (hop' : op' ∈ o.ops)
    (hsaid : ∀ a k msg, op = .pump a k → env.inbound = .message msg → Speaks d k a [msg.msg]) :
    Voice d op' := by
  have horigin := exec_ops hexec op' hop'
  cases op' with
  | registerAgent => exact horigin.elim
  | pump a k =>
    rcases horigin with ⟨reg, rfl, rfl⟩ | ⟨msg, rfl⟩
    · exact h
    · exact Speaks.silent h
  | admitMessage a k msg =>
    obtain ⟨rfl, hin⟩ := horigin
    exact hsaid a k msg rfl hin
  | applyAgentMessage rc m =>
    obtain ⟨msg, rfl, rfl, -⟩ := horigin
    exact h
  | _ => trivial

theorem Voiced.move (h : Voiced d) (hsess : Sessions d.controller) (hd : Distinct d)
    (hmove : Move d act d') : Voiced d' := by
  have hmove₀ := hmove
  cases hmove with
  | launch | agent => exact fun t op hop => (h t op hop).move hd hmove₀
  | @connect i p s hp hs =>
    intro t op' hop'
    cases step_of_next hs with
    | connect reg =>
      have htasks : (connected d.controller p.register).tasks t =
          if t = .session (d.controller.shared.sessionCounter + 1) then
            [.registerAgent p.register (d.controller.shared.sessionCounter + 1)]
          else d.controller.tasks t := Function.update_apply _ _ _ _
      rw [show op' ∈ _ ↔ op' ∈ (connected d.controller p.register).tasks t from Iff.rfl,
        htasks] at hop'
      split at hop'
      · obtain rfl := mem_singleton.1 hop'
        exact ⟨i, p, ⟨Function.update_self _ _ _, hp⟩, rfl, forall_mem_nil _⟩
      · exact (h t op' hop').move hd hmove₀
  | @controller a s hact htask _ hs =>
    intro t op' hop'
    rcases ahead_of_step (step_of_next hs) hop' with hold | hbegins | ⟨hprog, hexec, hnew⟩
    · exact (h t op' hold).move hd hmove₀
    · cases op' with
      | registerAgent reg k =>
        obtain ⟨rfl, -⟩ := hbegins
        exact hact.elim
      | _ => trivial
    · have hvoice := h t _ (hprog ▸ mem_cons_self)
      refine (voice_of_exec hvoice hexec hnew ?_).move hd hmove₀
      rintro a k msg rfl hin
      rcases hact with hended | ⟨k', seq, i, p, m, rfl, howner, hp, hm, hin'⟩
      · cases hended.symm.trans hin
      · cases hin'.symm.trans hin
        have htidy := hsess.tidy (.session k')
        rw [hprog] at htidy
        obtain ⟨rfl, -⟩ := rest_of_head htidy
        obtain ⟨i', p', hopen, ha, -⟩ := hvoice
        obtain rfl := Option.some.inj (hopen.owner.symm.trans howner)
        obtain rfl := Option.some.inj (hopen.process.symm.trans hp)
        exact ⟨i', p', hopen, ha, forall_mem_singleton.2 hm⟩

theorem voiced_of_reachable (h : (machine M).Reachable d) : Voiced d := by
  refine h.invariant ?_ ?_
  · rintro d₀ ⟨liveness, rfl⟩ t op hop
    rw [initial_tasks liveness t op hop]
    trivial
  · intro d₁ act d₂ hreach h₁ hnext
    have hsess := sessions_of_reachable (wired_of_reachable hreach).reachable.of_guarded
    exact h₁.move hsess (distinct_of_reachable hreach) (move_of_next hnext)

/-! ## The start of a run -/

/-- The agent is on record as ready, or about to be. -/
def Announced (s : Controller.State M) (R a : String) (i : ℕ) : Prop :=
  (∃ t, .markReady a R i ∈ s.tasks t) ∨ .ready R a i ∈ s.trace

theorem speaks_of_announced {R a : String} (h : (machine M).Reachable d)
    (ha : Announced d.controller R a i) : ∃ k, Speaks d k a [.assignmentReady R i] := by
  induction h with
  | init h =>
    obtain ⟨liveness, rfl⟩ := h
    obtain ⟨t, hop⟩ | he := ha
    · cases initial_tasks liveness t _ hop
    · cases he
  | @step d₁ act d₂ hreach hnext ih =>
    have hstep : ∀ {ca s}, Step d₁.controller ca s → Announced s R a i →
        ∃ k, Speaks d₁ k a [.assignmentReady R i] := by
      rintro ca s hstep (⟨t, hop⟩ | he)
      · rcases ahead_of_step hstep hop with hold | hbegins | ⟨hprog, hexec, hnew⟩
        · exact ih (.inl ⟨t, hold⟩)
        · exact hbegins.elim
        · obtain ⟨rc, rfl, rfl, -⟩ := exec_ops hexec _ hnew
          have hvoice := voiced_of_reachable hreach t _ (hprog ▸ mem_cons_self)
          exact ⟨rc.session, hvoice⟩
      · rcases step_cases hstep with ⟨t, hprog, hexec, -⟩ | ⟨t, op, ho⟩
        · rcases mem_append.1 he with hnew | hold
          · obtain rfl := exec_events hexec _ hnew
            exact ih (.inl ⟨t, hprog ▸ mem_cons_self⟩)
          · exact ih (.inr hold)
        · exact ih (.inr (ho.trace ▸ he))
    have hmove := move_of_next hnext
    obtain ⟨k, hk⟩ : ∃ k, Speaks d₁ k a [.assignmentReady R i] := by
      cases hmove with
      | launch | agent => exact ih ha
      | connect _ hs | controller _ _ _ hs => exact hstep (step_of_next hs) ha
    exact ⟨k, hk.move (distinct_of_reachable hreach) hmove⟩

/-- A process is told to start a run only at the time on record, and only when every assigned agent
has itself reported its own partition ready. -/
theorem start_heard_of_ready (h : (machine M).Reachable d) (hp : p ∈ d.processes) {R : String}
    {t : ℤ} (ht : .start R t ∈ p.heard) :
    ∃ run, d.controller.shared.runs[R]? = some run ∧ run.startUnixMs = some t ∧
      ∀ a ∈ run.assigned, ∃ i k, run.assigned.findIdx? (· == a) = some i ∧
        Speaks d k a [.assignmentReady R i] := by
  have hwired := wired_of_reachable h
  have hs := Barrier.startable_of_reachable hwired.reachable
  obtain ⟨k, hk⟩ := hwired.told p hp R t ht
  obtain ⟨_, _, _, hc⟩ := hs.commit_of_sent hk
  obtain ⟨run, hr, hstart, -⟩ := hs.on_record hc
  refine ⟨run, hr, hstart, fun a ha => ?_⟩
  have hphase := (hs.life.phased R run hr).ready (by simp [hstart]) a ha
  obtain ⟨i, hi, he⟩ := (hs.runs R run hr).ready a hphase
  obtain ⟨k', hk'⟩ := speaks_of_announced h (.inr he)
  exact ⟨i, k', hi, hk'⟩

theorem start_heard_one_agent : ∃ d, (machine listing).Reachable d ∧ ∃ p ∈ d.processes,
    .start "r" 5 ∈ p.heard ∧ ∃ run ∈ d.controller.shared.runs["r"]?, run.startUnixMs = some 5 := by
  obtain ⟨d, hd, p, hp, ht⟩ := (machine listing).exists_reachable_of_run ⟨3, rfl⟩ oneAgent
    (fun d => ∃ p ∈ d.processes, .start "r" 5 ∈ p.heard) (by decide +kernel)
  obtain ⟨run, hr, hstart, -⟩ := start_heard_of_ready hd hp ht
  exact ⟨d, hd, p, hp, ht, run, hr, hstart⟩

/-! ## Schedules

Pieces of the concrete runs in the modules below. -/

def opens (i k n : ℕ) : List (Action listing) := .connect i :: .replicate n (.step (.session k) {})

def submits (R : String) (n : ℕ) : List (Action listing) :=
  .submit { submission with runId := R } :: .replicate (n + 3) (.step (.submit R) {})

/-- Process `i` prepares what it has been assigned over session `k`, and reports ready. -/
def joins (i k : ℕ) : List (Action listing) := List.flatten
  [[.downlink k 1 true], .replicate 3 (.agent i (.prep 0 (.ok []) true)), [.uplink k 0 1 {}],
    .replicate 5 (.step (.session k) {})]

def commits (R : String) : List (Action listing) := .replicate 4 (.step (.barrier R) {})

end Deployment

end Loadr
