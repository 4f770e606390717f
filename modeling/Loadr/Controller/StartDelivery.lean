import Loadr.Controller.Barrier
import Loadr.Controller.Sessions

/-!
# Who gets the start of a run

The barrier commits the start of a run and then sends it to the agents that are connected; an agent
that reconnects with the run in flight gets it from `resume_run`.  The two cover each other when
downlinks take what they are given, but for an agent whose `resume_run` is still under way and a
claim that found the run settled (`Controller.start_reaches_ready_agents`).
-/

namespace Loadr

open List Option

namespace Controller

variable {M : Metering} {env : Env M} {inner : Inner M} {op : Op M} {o : Outcome M}
  {s s' : State M} {R a : String} {k : ℕ}

/-! ## Sessions and the log -/

def isCommit (R : String) : Event → Bool
  | .committed R' .. => R' == R
  | _ => false

def isRefusal (a R : String) : Event → Bool
  | .refused a' R' => a' == a && R' == R
  | _ => false

/-- The session was registered before the start of `R` was committed. -/
def existedAtCommit (R a : String) (k : ℕ) : List Event → Bool :=
  Tasks.follows (isCommit R) (isRegistration a k)

/-- After the session was registered, a claim of the agent found `R` settled. -/
def refusedSince (R a : String) (k : ℕ) : List Event → Bool :=
  Tasks.follows (isRefusal a R) (isRegistration a k)

def startQueued (inner : Inner M) (R : String) (k : ℕ) : Bool :=
  (inner.downlinks k).any fun
    | .msg (.start R' _) => R' == R
    | _ => false

def roomy : Action M → Bool
  | .step _ env => env.room
  | _ => true

/-! ## Operations that bring a start -/

/-- The operations of `resume_run` up to the one that puts the agent back. -/
def isClaim (R a : String) : Op M → Bool
  | .resumeRun a' R' | .resumeDone a' R' | .resumeLost a' R' => a' == a && R' == R
  | _ => false

/-- The operations of `resume_run` after that. -/
def isReplay (R a : String) : Op M → Bool
  | .resumePhase a' R' | .resumeStart a' R' | .resumeSender a' R' _ => a' == a && R' == R
  | _ => false

def isStartSend (R : String) (k : ℕ) : Op M → Bool
  | .send k' (.msg (.start R' _)) => k' == k && R' == R
  | _ => false

def isBroadcast (R : String) : Op M → Bool
  | .broadcastStart R' _ => R' == R
  | _ => false

/-- `resume_run` is under way for the agent: some task has an operation of it ahead. -/
def resuming (R a : String) (k : ℕ) (op : Op M) : Bool :=
  isClaim R a op || isReplay R a op || isStartSend R k op

/-- The operations that bring the start to the agent's session. -/
def isBringing (R a : String) (k : ℕ) (op : Op M) : Bool :=
  isBroadcast R op || isReplay R a op || isStartSend R k op

/-- An agent that should have, or get, the start of a committed run. -/
structure Owed (inner : Inner M) (R a : String) (k : ℕ) : Prop where
  run : ∃ run, inner.runs[R]? = some run ∧ run.startUnixMs ≠ none ∧ a ∈ run.assigned ∧
    run.done.contains a = false ∧ a ∉ run.lost
  session : ∃ e, inner.agents[a]? = some e ∧ e.session = k ∧ e.connected = true

/-- The start is on the downlink, or an operation ahead will bring it there. -/
def Coming (s : State M) (R a : String) (k : ℕ) : Prop :=
  startQueued s.shared R k = true ∨ ∃ t, ∃ op ∈ s.tasks t, isBringing R a k op = true

theorem startQueued_iff :
    startQueued inner R k = true ↔ ∃ t, .msg (.start R t) ∈ inner.downlinks k := by
  unfold startQueued
  rw [List.any_eq_true]
  constructor
  · rintro ⟨item, hitem, hR⟩
    split at hR
    · obtain rfl := beq_iff_eq.1 hR
      exact ⟨_, hitem⟩
    · cases hR
  · rintro ⟨t, hm⟩
    exact ⟨_, hm, beq_self_eq_true R⟩

/-! ## How an agent comes to be owed a start -/

theorem owed_session_cases (hexec : exec env inner op = some o)
    (h : ∃ e, o.shared.agents[a]? = some e ∧ e.session = k ∧ e.connected = true) :
    (∃ e, inner.agents[a]? = some e ∧ e.session = k ∧ e.connected = true) ∨
      ∃ reg, op = .registerAgent reg k ∧ reg.agentId = a := by
  obtain ⟨e', he', rfl, hc⟩ := h
  cases he : inner.agents[a]? with
  | none =>
    obtain ⟨reg, k, hop, hid, rfl⟩ := exec_entry_new hexec he he'
    exact .inr ⟨reg, hop, hid⟩
  | some e =>
    obtain ⟨e₁, he₁, heff⟩ := exec_entry hexec he
    cases he₁.symm.trans he'
    cases heff with
    | registered reg k hid => exact .inr ⟨reg, rfl, hid⟩
    | disconnected => cases hc
    | same | heartbeat | released | reserved | admitted => exact .inl ⟨_, rfl, rfl, hc⟩

theorem owed_cases (hexec : exec env inner op = some o) (h : Owed o.shared R a k) :
    Owed inner R a k ∨ (∃ reg, op = .registerAgent reg k ∧ reg.agentId = a) ∨
      op = .resumeLost a R ∨
      ∃ b run, op = .barrierCheck R b ∧ inner.runs[R]? = some run ∧ MayStart run := by
  rcases owed_session_cases hexec h.session with hsession | hop
  · obtain ⟨run', hr', hstart, ha, hd, hl⟩ := h.run
    rcases exec_run hexec hr' with hr | ⟨run, hr, heff⟩ | ⟨sub, selected, -, -, rfl⟩
    · exact .inl ⟨⟨run', hr, hstart, ha, hd, hl⟩, hsession⟩
    · rcases heff.start_cases with hst | ⟨b, hop, hmay, -⟩
      · by_cases hop : op = .resumeLost a R
        · exact .inr (.inr (.inl hop))
        · rw [heff.assigned_eq] at ha
          rw [hst] at hstart
          rw [Bool.eq_false_iff] at hd
          exact .inl ⟨⟨run, hr, hstart, ha, Bool.eq_false_iff.2 (mt heff.done_mono hd),
            mt (heff.lost_mono hop) hl⟩, hsession⟩
      · exact .inr (.inr (.inr ⟨b, run, hop, hr, hmay⟩))
    · cases hstart rfl
  · exact .inr (.inl hop)

def isTick : Op M → Bool
  | .tick _ | .publishLiveSnapshot _ | .tickState _ => true
  | _ => false

variable {t : TaskId} {rest : List (Op M)} {op' : Op M}

/-! ## The broadcast -/

theorem Life.cast_head (h : Life s) (hprog : s.tasks t = op :: rest) (hc : isCast R op = true) :
    t = .barrier R ∧ rest = [] ∧ .broadcast R ∉ s.trace := by
  obtain ⟨ht, hn, q, hq, hoff⟩ := h.cast (hprog ▸ mem_cons_self) hc
  rw [hprog] at hq
  cases q with
  | nil => exact ⟨ht, (List.cons.inj hq).2, hn⟩
  | cons op' q =>
    cases hq
    cases (hoff op mem_cons_self).2.symm.trans hc

theorem Life.not_broadcasting (h : Life s) (hbroadcast : .broadcast R ∈ s.trace)
    (hop : op ∈ s.tasks t) : isBroadcast R op = false := by
  refine Bool.eq_false_iff.2 fun hb => (h.cast (R := R) hop ?_).2.1 hbroadcast
  cases op <;> first | exact hb | cases hb

/-! ## Who resumes -/

def isResume : Op M → Bool
  | .resumeRun .. | .resumeDone .. | .resumeLost .. | .resumePhase .. | .resumeStart ..
  | .resumeSender .. | .send _ (.msg (.start ..)) => true
  | _ => false

/-- Sessions resume runs, and a barrier sends the starts of its broadcast before that is over. -/
def Placed (t : TaskId) (trace : List Event) (op : Op M) : Prop :=
  (∃ k, t = .session k) ∨
    ∃ R k start, t = .barrier R ∧ op = .send k (.msg (.start R start)) ∧ .broadcast R ∉ trace

theorem start_of_isResume {item : DownItem} (h : isResume (.send k item : Op M) = true) :
    ∃ R start, item = .msg (.start R start) := by
  cases item with
  | aborted => cases Bool.false_ne_true h
  | msg m => cases m <;> first | exact ⟨_, _, rfl⟩ | cases Bool.false_ne_true h

theorem isResume_of_isFirst (h : isFirst op = true) : isResume op = false := by
  cases op <;> first | rfl | cases h

theorem isResume_origin (hexec : exec env inner op = some o) (hop' : op' ∈ o.ops)
    (hr : isResume op' = true) : (∃ reg k, op = .registerAgent reg k) ∨
      (∃ R k start, op = .broadcastStart R start ∧ op' = .send k (.msg (.start R start))) ∨
      isResume op = true ∧ ∀ k item, op ≠ .send k item := by
  have horigin := exec_ops hexec op' hop'
  cases op' <;> simp only [isResume, Bool.false_eq_true] at hr
  case resumeRun =>
    obtain ⟨reg, k, hop, -⟩ := horigin
    exact .inl ⟨reg, k, hop⟩
  case resumePhase | resumeStart =>
    obtain rfl := horigin
    exact .inr (.inr ⟨rfl, nofun⟩)
  case resumeDone | resumeLost | resumeSender =>
    obtain ⟨rfl, -⟩ := horigin
    exact .inr (.inr ⟨rfl, nofun⟩)
  case send k item =>
    obtain ⟨R, start, rfl⟩ := start_of_isResume hr
    rcases horigin with ⟨a, rfl⟩ | rfl
    · exact .inr (.inr ⟨rfl, nofun⟩)
    · exact .inr (.inl ⟨R, k, start, rfl, rfl⟩)

theorem placed_exec (hsessions : Sessions s) (hlife : Life s)
    (hplaced : ∀ t, ∀ op ∈ s.tasks t, isResume op = true → Placed t s.trace op)
    (hprog : s.tasks t = op :: rest) (hexec : exec env s.shared op = some o) (t' : TaskId) :
    ∀ op' ∈ (s.commit t rest o).tasks t', isResume op' = true →
      Placed t' (o.events ++ s.trace) op' := by
  intro op' hop' hr
  rcases mem_commit hprog hexec hop' with ⟨hold, hrest⟩ | hbegins | ⟨rfl, hnew⟩
  · rcases hplaced t' op' hold hr with hk | ⟨R, k, start, rfl, he, hn⟩
    · exact .inl hk
    · refine .inr ⟨R, k, start, rfl, he, fun hm => ?_⟩
      -- a placed operation stays placed unless the broadcast ends now
      rcases mem_append.1 hm with hm | hm
      · obtain rfl := exec_events hexec _ hm
        obtain ⟨rfl, rfl, -⟩ := hlife.cast_head hprog (beq_self_eq_true R)
        cases hrest rfl
      · exact hn hm
  · cases (isResume_of_isFirst hbegins.isFirst).symm.trans hr
  · rcases isResume_origin hexec hnew hr with
      ⟨reg, k, hop⟩ | ⟨R, k, start, rfl, rfl⟩ | ⟨hop, hsend⟩
    · exact .inl ⟨k, (hsessions.registering hprog hop).1⟩
    · obtain ⟨rfl, -, hn⟩ := hlife.cast_head hprog (beq_self_eq_true R)
      refine .inr ⟨R, k, start, rfl, rfl, fun hm => ?_⟩
      rcases mem_append.1 hm with hm | hm
      · cases exec_events hexec _ hm
      · exact hn hm
    · rcases hplaced t' op (by simp [hprog]) hop with
        hk | ⟨R, k, start, -, he, -⟩
      · exact .inl hk
      · exact absurd he (hsend _ _)

/-! ## The start is brought -/

theorem mem_runSenders {run : ControllerRun M} (ha : a ∈ run.assigned)
    (hd : run.done.contains a = false) (hl : a ∉ run.lost) {e : AgentEntry}
    (he : inner.agents[a]? = some e) (hc : e.connected = true) :
    (a, e.session) ∈ inner.runSenders run := by
  unfold Inner.runSenders
  refine mem_filterMap.2 ⟨a, mem_filter.2 ⟨ha, ?_⟩, ?_⟩
  · simp [ControllerRun.settled, hd, hl]
  · simp [he, hc]

theorem bringing_exec (hexec : exec env inner op = some o) (hroom : env.room = true)
    (howed : Owed inner R a k) (hphased : ∀ run, inner.runs[R]? = some run → Phased run)
    (hop : isBringing R a k op = true) :
    startQueued o.shared R k = true ∨ ∃ op' ∈ o.ops, isBringing R a k op' = true := by
  obtain ⟨run, hr, hstart, ha, hd, hl⟩ := howed.run
  obtain ⟨e, he, rfl, hc⟩ := howed.session
  obtain ⟨start, hst⟩ := ne_none_iff_exists'.1 hstart
  cases op <;> simp only [isBringing, isBroadcast, isReplay, isStartSend, Bool.or_false,
    Bool.false_or, Bool.false_eq_true, Bool.and_eq_true, beq_iff_eq] at hop
  case broadcastStart R' t =>
    subst hop
    simp only [exec, withRun, hr, some.injEq] at hexec
    subst hexec
    refine .inr ⟨.send e.session (.msg (.start R' t)), mem_append_left _ ?_, ?_⟩
    · exact mem_map.2 ⟨_, mem_runSenders ha hd hl he hc, rfl⟩
    · simp [isBringing, isStartSend]
  case resumePhase a' R' =>
    obtain ⟨rfl, rfl⟩ := hop
    have hready := (hphased run hr).ready hstart a' ha
    simp only [exec, withRun, hr, hready, some.injEq] at hexec
    subst hexec
    exact .inr ⟨_, mem_singleton_self _, by simp [isBringing, isReplay]⟩
  case resumeStart a' R' =>
    obtain ⟨rfl, rfl⟩ := hop
    simp only [exec, withRun, hr, hst, some.injEq] at hexec
    subst hexec
    exact .inr ⟨_, mem_singleton_self _, by simp [isBringing, isReplay]⟩
  case resumeSender a' R' t =>
    obtain ⟨rfl, rfl⟩ := hop
    simp only [exec, Inner.agentSender, he, map_some, some.injEq] at hexec
    subst hexec
    exact .inr ⟨_, mem_singleton_self _, by simp [isBringing, isStartSend]⟩
  case send k' item =>
    cases item with
    | aborted => simp at hop
    | msg m =>
      cases m <;> simp only [Bool.false_eq_true, Bool.and_eq_true, beq_iff_eq] at hop
      case start R' t =>
        obtain ⟨rfl, rfl⟩ := hop
        cases hexec
        rw [deliver, if_pos hroom]
        exact .inl (startQueued_iff.2 ⟨t, mem_enqueue.2 (.inr ⟨rfl, rfl⟩)⟩)

theorem claim_exec (hexec : exec env inner op = some o) (howed : Owed inner R a k)
    (hop : isClaim R a op = true) :
    (∃ op' ∈ o.ops, isClaim R a op' = true) ∨ (∃ op' ∈ o.ops, isBringing R a k op' = true) ∨
      o.events = [.refused a R] := by
  obtain ⟨run, hr, hstart, ha, hd, hl⟩ := howed.run
  cases op <;> simp only [isClaim, Bool.false_eq_true, Bool.and_eq_true, beq_iff_eq] at hop
  case resumeRun a' R' =>
    obtain ⟨rfl, rfl⟩ := hop
    simp only [exec, hr] at hexec
    rw [if_neg (not_not.2 ha)] at hexec
    split at hexec
    · cases hexec
    split at hexec
    · cases hexec
      exact .inr (.inr rfl)
    · cases hexec
      exact .inl ⟨_, mem_singleton_self _, by simp [isClaim]⟩
  case resumeDone a' R' =>
    obtain ⟨rfl, rfl⟩ := hop
    simp only [exec, withRun, hr, hd, Bool.false_eq_true, if_false, some.injEq] at hexec
    subst hexec
    exact .inl ⟨_, mem_singleton_self _, by simp [isClaim]⟩
  case resumeLost a' R' =>
    obtain ⟨rfl, rfl⟩ := hop
    cases hexec
    exact .inr (.inl ⟨_, mem_singleton_self _, by simp [isBringing, isReplay]⟩)

/-! ## The invariant -/

def Claiming (s : State M) (R a : String) : Prop := ∃ t, ∃ op ∈ s.tasks t, isClaim R a op = true

structure Delivery (s : State M) : Prop where
  life : Life s
  sessions : Sessions s
  named : "" ∉ s.shared.runIds
  ticks : ∀ R, ∀ op ∈ s.tasks (.ticker R), isTick op = true
  placed : ∀ t, ∀ op ∈ s.tasks t, isResume op = true → Placed t s.trace op
  existed : ∀ R a k, Owed s.shared R a k → existedAtCommit R a k s.trace = true → Coming s R a k
  claimed : ∀ R a k, Owed s.shared R a k → .registered a k R false ∈ s.trace →
    Coming s R a k ∨ Claiming s R a ∨ refusedSince R a k s.trace = true

theorem isTick_of_exec (hexec : exec env inner op = some o) (hop : isTick op = true) :
    ∀ op' ∈ o.ops, isTick op' = true := by
  cases op <;> simp only [isTick, Bool.false_eq_true] at hop
  case tick R =>
    cases hexec
    simp [isTick]
  case publishLiveSnapshot R =>
    rcases withState_cases hexec with ⟨-, rfl⟩ | ⟨run, -, -, rfl⟩ <;> exact forall_mem_nil _
  case tickState R =>
    rcases withState_cases hexec with ⟨-, rfl⟩ | ⟨run, -, -, rfl⟩
    · exact forall_mem_nil _
    · exact forall_mem_unless fun _ => rfl

theorem Delivery.ticks_step {act : Action M} (h : Delivery s) (hstep : Step s act s') (R : String) :
    ∀ op' ∈ s'.tasks (.ticker R), isTick op' = true := by
  intro op' hop'
  rcases ahead_of_step hstep hop' with hold | hbegins | ⟨hprog, hexec, hnew⟩
  · exact h.ticks R op' hold
  · cases op' <;> simp_all [Begins, isTick]
  · exact isTick_of_exec hexec (h.ticks R _ (hprog ▸ mem_cons_self)) op' hnew

section

variable (h : Delivery s) (hprog : s.tasks t = op :: rest) (hexec : exec env s.shared op = some o)

include h hprog hexec

theorem Delivery.new_ahead (hop' : op' ∈ o.ops) : op' ∈ (s.commit t rest o).tasks t := by
  rcases commit_tasks hexec t with ⟨R, b, ht, hop, -⟩ | ⟨R, ht, hop, -⟩ | ⟨-, he⟩
  · subst hop
    cases ht.symm.trans (h.life.head hprog).1
  · have htick := h.ticks R op (by simp [← ht, hprog])
    rw [hop] at htick
    cases htick
  · rw [he, if_pos rfl]
    exact mem_append_left _ hop'

theorem Delivery.ahead {t' : TaskId} (hop' : op' ∈ s.tasks t') (htick : isTick op' = false) :
    op' ∈ (s.commit t rest o).tasks t' ∨ op' = op := by
  rcases commit_tasks hexec t' with ⟨R, b, rfl, hop, -⟩ | ⟨R, rfl, -, -⟩ | ⟨-, he⟩
  · subst hop
    obtain ⟨-, hnil⟩ := h.life.head hprog
    rw [hnil] at hop'
    cases hop'
  · cases htick.symm.trans (h.ticks R op' hop')
  · rw [he]
    split_ifs with ht
    · subst ht
      rw [hprog] at hop'
      exact (mem_cons.1 hop').symm.imp_left (mem_append_right _)
    · exact .inl hop'

theorem Delivery.coming_of_new (hop' : op' ∈ o.ops) (hb : isBringing R a k op' = true) :
    Coming (s.commit t rest o) R a k :=
  .inr ⟨t, op', h.new_ahead hprog hexec hop', hb⟩

theorem Delivery.coming_exec (hroom : env.room = true) (howed : Owed s.shared R a k)
    (hcoming : Coming s R a k) : Coming (s.commit t rest o) R a k := by
  rcases hcoming with hq | ⟨t', op', hop', hb⟩
  · obtain ⟨start, hm⟩ := startQueued_iff.1 hq
    exact .inl (startQueued_iff.2 ⟨start, exec_downlinks hexec hm⟩)
  · have htick : isTick op' = false := by
      cases op' <;> first | rfl | cases hb
    rcases h.ahead hprog hexec hop' htick with hop' | rfl
    · exact .inr ⟨t', op', hop', hb⟩
    · rcases bringing_exec hexec hroom howed (h.life.phased R) hb with hq | ⟨op₁, hop₁, hb₁⟩
      · exact .inl hq
      · exact h.coming_of_new hprog hexec hop₁ hb₁

theorem Delivery.claiming_exec (howed : Owed s.shared R a k)
    (hreg : .registered a k R false ∈ s.trace) (hclaiming : Claiming s R a) :
    Coming (s.commit t rest o) R a k ∨ Claiming (s.commit t rest o) R a ∨
      refusedSince R a k (o.events ++ s.trace) = true := by
  obtain ⟨t', op', hop', hc⟩ := hclaiming
  have htick : isTick op' = false := by
    cases op' <;> first | rfl | cases hc
  rcases h.ahead hprog hexec hop' htick with hop' | rfl
  · exact .inr (.inl ⟨t', op', hop', hc⟩)
  · rcases claim_exec hexec howed hc with ⟨op₁, hop₁, hc₁⟩ | ⟨op₁, hop₁, hb₁⟩ | he
    · exact .inr (.inl ⟨t, op₁, h.new_ahead hprog hexec hop₁, hc₁⟩)
    · exact .inl (h.coming_of_new hprog hexec hop₁ hb₁)
    · rw [he]
      refine .inr (.inr (Tasks.follows_of_cons (by simp [isRefusal]) ?_))
      exact List.any_eq_true.2 ⟨_, hreg, by simp [isRegistration]⟩

theorem Delivery.coming_of_cause (horigin : op = .resumeLost a R ∨
      ∃ b run, op = .barrierCheck R b ∧ s.shared.runs[R]? = some run ∧ MayStart run) :
    Coming (s.commit t rest o) R a k := by
  rcases horigin with rfl | ⟨b, run, rfl, hr, hmay⟩
  · have hmem : .resumePhase a R ∈ o.ops := by
      rw [← some.inj hexec]
      exact mem_singleton_self _
    exact h.coming_of_new hprog hexec hmem (by simp [isBringing, isReplay])
  · have hmem : .broadcastStart R (env.now + b) ∈ o.ops := by
      rw [(Barrier.exec_commit hexec hr hmay).2.2]
      exact mem_singleton_self _
    exact h.coming_of_new hprog hexec hmem (by simp [isBringing, isBroadcast])

theorem Delivery.existed_exec (hroom : env.room = true) (howed : Owed o.shared R a k)
    (hexisted : existedAtCommit R a k (o.events ++ s.trace) = true) :
    Coming (s.commit t rest o) R a k := by
  have hnew : ∀ e ∈ o.events, isCommit R e = true →
      ∃ b run, op = .barrierCheck R b ∧ s.shared.runs[R]? = some run ∧ MayStart run := by
    intro e he hR
    have hlogs := exec_events hexec e he
    cases e <;> simp only [isCommit, Bool.false_eq_true] at hR
    case committed R' start state failure assigned =>
      obtain rfl := beq_iff_eq.1 hR
      obtain ⟨b, run, hop, hr, hmay, -⟩ := hlogs
      exact ⟨b, run, hop, hr, hmay⟩
  rcases Tasks.follows_append_cases hexisted with hold | ⟨e, he, hR, -⟩
  · rcases owed_cases hexec howed with howed | ⟨reg, hop, -⟩ | horigin
    · exact h.coming_exec hprog hexec hroom howed (h.existed R a k howed hold)
    · obtain ⟨rfl, -⟩ := h.sessions.registering hprog hop
      have hfresh := h.sessions.fresh reg k (by simp [hprog, hop]) a
      cases hfresh.symm.trans (Tasks.any_of_follows hold)
    · exact h.coming_of_cause hprog hexec horigin
  · exact h.coming_of_cause hprog hexec (.inr (hnew e he hR))

theorem Delivery.claiming_of_registered (hR : R ≠ "")
    (hreg : .registered a k R false ∈ o.events) : Claiming (s.commit t rest o) R a := by
  obtain ⟨reg, rfl, rfl, rfl, hrestarted⟩ := exec_events hexec _ hreg
  cases hexec
  refine ⟨t, .resumeRun reg.agentId reg.resumeRunId, h.new_ahead hprog rfl ?_, by simp [isClaim]⟩
  simp [registerAgent, registrationOps, ← hrestarted, hR]

theorem Delivery.claimed_exec (hroom : env.room = true) (howed : Owed o.shared R a k)
    (hR : R ≠ "") (hreg : .registered a k R false ∈ o.events ++ s.trace) :
    Coming (s.commit t rest o) R a k ∨ Claiming (s.commit t rest o) R a ∨
      refusedSince R a k (o.events ++ s.trace) = true := by
  rcases mem_append.1 hreg with hnew | hold
  · exact .inr (.inl (h.claiming_of_registered hprog hexec hR hnew))
  · rcases owed_cases hexec howed with howed | ⟨reg, hop, -⟩ | horigin
    · rcases h.claimed R a k howed hold with hcoming | hclaiming | hrefused
      · exact .inl (h.coming_exec hprog hexec hroom howed hcoming)
      · exact h.claiming_exec hprog hexec howed hold hclaiming
      · exact .inr (.inr (Tasks.follows_append hrefused _))
    · obtain ⟨rfl, -⟩ := h.sessions.registering hprog hop
      have hfresh := h.sessions.fresh reg k (by simp [hprog, hop]) a
      have hany : s.trace.any (isRegistration a k) = true :=
        List.any_eq_true.2 ⟨_, hold, by simp [isRegistration]⟩
      cases hfresh.symm.trans hany
    · exact .inl (h.coming_of_cause hprog hexec horigin)

end

theorem Owed.named (h : Owed s.shared R a k) (hlife : Life s) (hnamed : "" ∉ s.shared.runIds) :
    R ≠ "" := by
  rintro rfl
  obtain ⟨run, hr, -⟩ := h.run
  exact (hlife.unminted "" hnamed).1 (Std.ExtTreeMap.mem_iff_isSome_getElem?.2 (by rw [hr]; rfl))

theorem Delivery.exec_step (h : Delivery s) (hprog : s.tasks t = op :: rest)
    (hexec : exec env s.shared op = some o) (hroom : env.room = true) :
    Delivery (s.commit t rest o) := by
  have hlife := h.life.step (.exec hprog hexec)
  have hnamed : "" ∉ o.shared.runIds := by
    rw [(exec_counters hexec).2]
    exact h.named
  constructor
  · exact hlife
  · exact h.sessions.step (.exec hprog hexec)
  · exact hnamed
  · exact h.ticks_step (.exec hprog hexec)
  · exact placed_exec h.sessions h.life h.placed hprog hexec
  · intro R a k howed hexisted
    exact h.existed_exec hprog hexec hroom howed hexisted
  · intro R a k howed hreg
    exact h.claimed_exec hprog hexec hroom howed (howed.named hlife hnamed) hreg

theorem Delivery.opens {act : Action M} (h : Delivery s) (hstep : Step s act s')
    (ho : Opens s act t op s') : Delivery s' := by
  have hidle := ho.idle h.sessions.unopened fun R hR => (h.life.unminted R hR).2.1
  have howed : ∀ {R a k}, Owed s'.shared R a k → Owed s.shared R a k :=
    fun howed => ⟨ho.runs ▸ howed.run, ho.agents ▸ howed.session⟩
  have hcoming : ∀ {R a k}, Coming s R a k → Coming s' R a k := by
    rintro R a k (hq | ⟨t', op, hop, hb⟩)
    · obtain ⟨start, hm⟩ := startQueued_iff.1 hq
      exact .inl (startQueued_iff.2 ⟨start, (ho.downlinks _ _).2 (.inl hm)⟩)
    · exact .inr ⟨t', op, ho.ahead hidle hop, hb⟩
  refine ⟨h.life.step hstep, h.sessions.step hstep, fun hm => ?_, h.ticks_step hstep,
    fun t' op' hop' hr => ?_, fun R a k hO hexisted => ?_, fun R a k hO hreg => ?_⟩
  · exact ((ho.runIds "").1 hm).elim h.named fun ht => (ho.fresh "" ht).2 rfl
  · rw [ho.trace]
    rcases ho.mem hop' with hold | ⟨-, rfl⟩
    · exact h.placed t' op' hold hr
    · cases (isResume_of_isFirst ho.begins.isFirst).symm.trans hr
  · exact hcoming (h.existed R a k (howed hO) (ho.trace ▸ hexisted))
  · rw [ho.trace] at hreg ⊢
    rcases h.claimed R a k (howed hO) hreg with hc | ⟨t', op, hop, hc⟩ | hrefused
    · exact .inl (hcoming hc)
    · exact .inr (.inl ⟨t', op, ho.ahead hidle hop, hc⟩)
    · exact .inr (.inr hrefused)

theorem Delivery.step {act : Action M} (h : Delivery s) (hroomy : roomy act = true)
    (hstep : Step s act s') : Delivery s' := by
  rcases step_cases hstep with ⟨t, hprog, hexec, -⟩ | ⟨t, op, ho⟩
  · exact h.exec_step hprog hexec hroomy
  · exact h.opens hstep ho

/-! ## Delivery of the start -/

/-- The controller when every send finds room. -/
def roomyMachine (M : Metering) : Machine (State M) (Action M) :=
  (machine M).guarded fun _ act => roomy act = true

theorem delivery_initial (liveness : ℕ) : Delivery (initial M liveness) := by
  have htasks : ∀ t, ∀ op ∈ (initial M liveness).tasks t, op = .sweep := initial_tasks liveness
  constructor
  · exact life_initial liveness
  · exact sessions_initial liveness
  · exact not_mem_nil
  · exact fun R => forall_mem_nil _
  · intro t op hop hr
    rw [htasks t op hop] at hr
    cases hr
  · exact fun _ _ _ _ hexisted => nomatch hexisted
  · exact fun _ _ _ _ hreg => absurd hreg not_mem_nil

theorem delivery_of_reachable (h : (roomyMachine M).Reachable s) : Delivery s :=
  guarded_invariant delivery_initial (fun _ hroomy hs => hs.step hroomy) h

theorem isResume_of_resuming (h : resuming R a k op = true) : isResume op = true := by
  cases op <;> first | rfl | skip
  case send k' item =>
    cases item with
    | aborted => cases Bool.false_ne_true h
    | msg m => cases m <;> first | rfl | cases Bool.false_ne_true h
  all_goals cases Bool.false_ne_true h

/-- The broadcast of `R` is over and the agent with the entry `e` is to take part: it is connected,
assigned, ready, and neither done nor lost. -/
def Expects (s : State M) (R a : String) (e : AgentEntry) : Prop :=
  .broadcast R ∈ s.trace ∧ e.connected = true ∧ ∃ run ∈ s.shared.runs[R]?, a ∈ run.assigned ∧
    run.prep.phases[a]? = some .ready ∧ run.done.contains a = false ∧ a ∉ run.lost

instance (s : State M) (R a : String) (e : AgentEntry) : Decidable (Expects s R a e) :=
  inferInstanceAs (Decidable (_ ∧ _ ∧ ∃ _ ∈ _, _))

/-- In every state after the broadcast of a run, an agent that is to take part has the start on the
downlink of its session, if that session existed at the commit or registered with a claim of the run
that was not found settled, and no `resume_run` is under way for it. -/
theorem start_reaches_ready_agents (hs : (roomyMachine M).Reachable s) {e : AgentEntry}
    (he : s.shared.agents[a]? = some e) (hexpects : Expects s R a e)
    (hsession : existedAtCommit R a e.session s.trace = true ∨
      .registered a e.session R false ∈ s.trace ∧ refusedSince R a e.session s.trace = false)
    (hidle : ∀ k, ∀ op ∈ s.tasks (.session k), resuming R a e.session op = false) :
    startQueued s.shared R e.session = true := by
  have h := delivery_of_reachable hs
  obtain ⟨hbroadcast, hc, run, hr, ha, -, hd, hl⟩ := hexpects
  obtain ⟨start, run', hr', hst⟩ := (h.life.stage R).committed_of_broadcast hbroadcast
  cases Eq.symm hr |>.trans hr'
  have howed : Owed s.shared R a e.session :=
    ⟨⟨run, hr, by rw [hst]; exact some_ne_none _, ha, hd, hl⟩, ⟨e, he, rfl, hc⟩⟩
  have hnone : ∀ t, ∀ op ∈ s.tasks t, resuming R a e.session op = false := by
    intro t op hop
    by_contra hre
    rw [Bool.not_eq_false] at hre
    rcases h.placed t op hop (isResume_of_resuming hre) with ⟨k, rfl⟩ | ⟨R', k, start, -, rfl, hn⟩
    · cases (hidle k op hop).symm.trans hre
    · obtain ⟨-, rfl⟩ : k = e.session ∧ R' = R := by
        simpa [resuming, isClaim, isReplay, isStartSend] using hre
      exact hn hbroadcast
  have hcoming : Coming s R a e.session := by
    rcases hsession with hexisted | ⟨hreg, hrefused⟩
    · exact h.existed R a e.session howed hexisted
    · rcases h.claimed R a e.session howed hreg with hcoming | ⟨t, op, hop, hcl⟩ | hre
      · exact hcoming
      · have hi := hnone t op hop
        rw [resuming, hcl] at hi
        cases hi
      · cases hrefused.symm.trans hre
  rcases hcoming with hq | ⟨t, op, hop, hb⟩
  · exact hq
  · have hi := hnone t op hop
    rw [resuming, Bool.or_assoc, Bool.or_eq_false_iff] at hi
    rw [isBringing, Bool.or_assoc, h.life.not_broadcasting hbroadcast hop, hi.2] at hb
    cases hb

/-! ## Reconnects around a broadcast -/

theorem start_reaches_reconnected_agent : ∃ s, (roomyMachine listing).Reachable s ∧
    ∃ e ∈ s.shared.agents["a"]?, Expects s "r" "a" e ∧ e.session = 3 ∧
      .registered "a" e.session "r" false ∈ s.trace ∧
      startQueued s.shared "r" e.session = true := by
  obtain ⟨s, hr, hcount, e, he, hexpects, hsession, hreg, hrefused, hidle⟩ :=
    Machine.exists_reachable_of_run (roomyMachine listing) (initialized 10)
      (startedPair .keepGoing ++ claimAgain 3 9)
      (fun s => s.shared.sessionCounter = 3 ∧ ∃ e ∈ s.shared.agents["a"]?, Expects s "r" "a" e ∧
        e.session = 3 ∧ Event.registered "a" e.session "r" false ∈ s.trace ∧
        refusedSince "r" "a" e.session s.trace = false ∧
        ∀ k ∈ List.range 4, ∀ op ∈ s.tasks (.session k), resuming "r" "a" e.session op = false)
      (by decide +kernel)
  refine ⟨s, hr, e, he, hexpects, hsession, hreg,
    start_reaches_ready_agents hr he hexpects (.inr ⟨hreg, hrefused⟩) fun k op hop => ?_⟩
  by_cases hk : k < 4
  · exact hidle k (mem_range.2 hk) op hop
  · rw [(delivery_of_reachable hr).sessions.unopened k (by omega)] at hop
    cases hop

/-- An agent that is to take part in the run, over a session that registered with it, does not have
the start on its downlink. -/
def Missed (s : State M) (R a : String) (e : AgentEntry) (restarted : Bool) : Prop :=
  Expects s R a e ∧ .registered a e.session R restarted ∈ s.trace ∧
    startQueued s.shared R e.session = false

instance (s : State M) (R a : String) (e : AgentEntry) (restarted : Bool) :
    Decidable (Missed s R a e restarted) :=
  inferInstanceAs (Decidable (_ ∧ _ ∧ _))

/-- The start is not there before `resume_run` gets to it; when the run has failed meanwhile, since
the claim is then answered with a kill; and when two processes use the agent's name in turn, since
the claim of a process that the controller takes for a new one is ignored. -/
theorem start_missed :
    (∃ s, (roomyMachine listing).Reachable s ∧ ∃ e ∈ s.shared.agents["a"]?,
      Missed s "r" "a" e false ∧
      ∃ op ∈ s.tasks (.session e.session), resuming "r" "a" e.session op = true) ∧
    (∃ s, (roomyMachine listing).Reachable s ∧ ∃ e ∈ s.shared.agents["a"]?,
      Missed s "r" "a" e false ∧ refusedSince "r" "a" e.session s.trace = true) ∧
    ∃ s, (roomyMachine listing).Reachable s ∧
      ∃ e ∈ s.shared.agents["a"]?, Missed s "r" "a" e true := by
  refine ⟨?_, ?_, ?_⟩
  · exact (roomyMachine listing).exists_reachable_of_run (initialized 10)
      (startedPair .keepGoing ++ claimAgain 3 1) _ (by decide +kernel)
  · exact (roomyMachine listing).exists_reachable_of_run (initialized 10)
      (startedPair .abort ++ intrude "b" "k" 3 11 ++ claimAgain 4 5) _ (by decide +kernel)
  · exact (roomyMachine listing).exists_reachable_of_run (initialized 10)
      (startedPair .keepGoing ++ intrude "a" "x" 3 9 ++ claimAgain 4 2 ++ claimAgain 5 9 ++
        intrude "a" "x" 6 2 ++ claimAgain 7 2) _ (by decide +kernel)

end Controller

end Loadr
