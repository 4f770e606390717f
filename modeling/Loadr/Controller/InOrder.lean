import Loadr.Controller.Steps

/-!
# The order in which uplink messages take effect

`admit` moves the cursor and acknowledges a message under the agents lock; `apply_agent_message`
runs after the lock is gone, and the pump of a newer session may overtake that of an older one.
-/

namespace Loadr

open List Option

namespace Controller

variable {M : Metering} {env : Env M} {inner : Inner M} {op : Op M} {o : Outcome M}
  {s s' : State M} {a inc : String}

/-! ## Programs of sessions -/

/-- The operations of a handler other than those that move a message through a session. -/
def Quiet : Op M → Prop
  | .registerAgent .. | .pump .. | .admitMessage .. | .applyAgentMessage .. | .applied _ => False
  | _ => True

/-- What a session does after a handler: end, wait for a message, or finish the one it has. -/
inductive Resting (k : ℕ) : List (Op M) → Prop
  | closing : Resting k []
  | waiting (a : String) : Resting k [.pump a k]
  | finishing (rc : Received) : rc.session = k → Resting k [.applied rc, .pump rc.agentId k]

/-- The program of a session: it registers, admits a message, hands it on, or runs a handler. -/
inductive SessionProg (k : ℕ) : List (Op M) → Prop
  | registering (reg : Register) : SessionProg k [.registerAgent reg k]
  | admitting (a : String) (msg : AgentMessage (AgentMsg M.Bytes)) :
    SessionProg k [.admitMessage a k msg]
  | handing (rc : Received) (m : AgentMsg M.Bytes) : rc.session = k →
    SessionProg k [.applyAgentMessage rc m, .applied rc, .pump rc.agentId k]
  | serving (ops tail : List (Op M)) : (∀ op ∈ ops, Quiet op) → Resting k tail →
    SessionProg k (ops ++ tail)

def isDelta : Op M → Bool
  | .deltaName .. | .deltaState .. | .deltaContributing .. | .deltaMerge .. | .deltaLost ..
  | .deltaDone .. | .deltaRelease _ => true
  | _ => false

/-- Messages move through sessions only, and deltas are handled there. -/
def Tidy : TaskId → List (Op M) → Prop
  | .session k, p => SessionProg k p
  | _, p => ∀ op ∈ p, Quiet op ∧ isDelta op = false

/-- Quiet operations, and the handling of a message, lead to quiet operations only. -/
theorem quiet_of_exec (h : exec env inner op = some o)
    (hop : Quiet op ∨ ∃ rc m, op = .applyAgentMessage rc m) : ∀ op' ∈ o.ops, Quiet op' := by
  intro op' hop'
  have horigin := exec_ops h op' hop'
  cases op' <;> try exact trivial
  case registerAgent => exact horigin
  case pump => rcases horigin with ⟨reg, rfl, -⟩ | ⟨msg, rfl⟩ <;> simp [Quiet] at hop
  case admitMessage =>
    obtain ⟨rfl, -⟩ := horigin
    simp [Quiet] at hop
  case applyAgentMessage =>
    obtain ⟨msg, rfl, -⟩ := horigin
    simp [Quiet] at hop
  case applied =>
    obtain ⟨msg, rfl⟩ := horigin
    simp [Quiet] at hop

theorem isDelta_of_exec (h : exec env inner op = some o) {op' : Op M} (hop' : op' ∈ o.ops)
    (hd : isDelta op' = true) : isDelta op = true ∨ ∃ rc m, op = .applyAgentMessage rc m := by
  have horigin := exec_ops h op' hop'
  cases op' <;> simp only [isDelta, Bool.false_eq_true] at hd
  case deltaName rc R delta =>
    obtain ⟨json, rfl, -⟩ := horigin
    exact .inr ⟨rc, _, rfl⟩
  case deltaState =>
    obtain ⟨delta', name, rfl, -⟩ := horigin
    exact .inl rfl
  case deltaContributing | deltaMerge =>
    obtain rfl := horigin
    exact .inl rfl
  case deltaLost =>
    obtain ⟨delta, rfl⟩ := horigin
    exact .inl rfl
  case deltaDone =>
    obtain ⟨rfl, -⟩ := horigin
    exact .inl rfl
  case deltaRelease =>
    obtain ⟨rc, lost, rfl⟩ := horigin
    exact .inl rfl

theorem tidy_of_exec (h : exec env inner op = some o) (hop : Quiet op ∧ isDelta op = false) :
    ∀ op' ∈ o.ops, Quiet op' ∧ isDelta op' = false := by
  intro op' hop'
  refine ⟨quiet_of_exec h (.inl hop.1) op' hop', Bool.eq_false_iff.2 fun hd => ?_⟩
  rcases isDelta_of_exec h hop' hd with hd | ⟨rc, m, rfl⟩
  · cases hop.2.symm.trans hd
  · exact hop.1

theorem quiet_registrationOps (reg : Register) (k : ℕ) (r : Registration) :
    ∃ ops : List (Op M), registrationOps reg k r = ops ++ [.pump reg.agentId k] ∧
      ∀ op ∈ ops, Quiet op := by
  refine ⟨_, rfl, ?_⟩
  simp only [forall_mem_append]
  refine ⟨⟨?_, ?_⟩, forall_mem_unless fun _ => trivial⟩
  · cases r.superseded with
    | none => exact forall_mem_nil _
    | some previous => exact forall_mem_singleton.2 trivial
  · cases r.followup with
    | none => exact forall_mem_nil _
    | terminateParticipation | maybeReplayAssignment => exact forall_mem_singleton.2 trivial

variable {k k' : ℕ} {rest : List (Op M)} {t : TaskId} {rc : Received} {runId : String}

theorem sessionProg_exec (hp : SessionProg k (op :: rest)) (h : exec env inner op = some o) :
    SessionProg k (o.ops ++ rest) := by
  generalize hl : op :: rest = p at hp
  cases hp with
  | registering reg =>
    cases hl
    cases h
    obtain ⟨ops, hops, hquiet⟩ := quiet_registrationOps (M := M) reg k
      (inner.agents.register reg k env.now).1
    show SessionProg k (registrationOps reg k _ ++ [])
    rw [append_nil, hops]
    exact .serving _ _ hquiet (.waiting _)
  | admitting a msg =>
    cases hl
    cases h
    obtain ⟨acks, events, -, -, hpumped⟩ := pumped env inner a k msg
    generalize (admitMessage env inner a k msg).ops = ops at hpumped
    cases hpumped with
    | apply f _ _ _ _ => exact .handing (received inner a k msg) _ rfl
    | duplicate => exact .serving [] _ (forall_mem_nil _) (.waiting a)
    | stale => exact .serving _ [] (forall_mem_singleton.2 trivial) .closing
  | handing rc m hk =>
    cases hl
    exact .serving _ _ (quiet_of_exec h (.inr ⟨rc, m, rfl⟩)) (.finishing rc hk)
  | serving ops tail hquiet htail =>
    cases ops with
    | nil =>
      cases htail with
      | closing => cases hl
      | waiting a =>
        cases hl
        cases h
        dsimp only
        split
        · exact .admitting a _
        · exact .serving _ [] (forall_mem_singleton.2 trivial) .closing
      | finishing rc hk =>
        cases hl
        cases h
        exact .serving [] _ (forall_mem_nil _) (.waiting _)
    | cons op' ops =>
      cases hl
      obtain ⟨hop, hops⟩ := forall_mem_cons.1 hquiet
      show SessionProg k (o.ops ++ (ops ++ tail))
      rw [← append_assoc]
      exact .serving _ _ (forall_mem_append.2 ⟨quiet_of_exec h (.inl hop), hops⟩) htail

theorem Begins.tidy {act : Action M} (h : Begins act t op) : Tidy t [op] := by
  cases op <;> try exact h.elim
  case registerAgent reg k =>
    rw [h.2]
    exact .registering reg
  case reserveAgents sub =>
    rw [h.2]
    exact forall_mem_singleton.2 ⟨trivial, rfl⟩
  case controlRun call =>
    obtain ⟨n, -, rfl⟩ := h
    exact forall_mem_singleton.2 ⟨trivial, rfl⟩
  all_goals
    obtain rfl := h
    exact forall_mem_singleton.2 ⟨trivial, rfl⟩

theorem tidy_step {act : Action M} (ht : ∀ t, Tidy t (s.tasks t)) (h : Step s act s') (t : TaskId) :
    Tidy t (s'.tasks t) := by
  have hold := ht t
  rcases program_of_step h t with he | ⟨op, hbegins, he⟩ | ⟨env, op, rest, o, hprog, hexec, he⟩
  · exact he ▸ hold
  · exact he ▸ hbegins.tidy
  · rw [hprog] at hold
    rw [he]
    cases t with
    | session k => exact sessionProg_exec hold hexec
    | submit | control | barrier | ticker | sweeper =>
      obtain ⟨hop, hrest⟩ := forall_mem_cons.1 hold
      exact forall_mem_append.2 ⟨tidy_of_exec hexec hop, hrest⟩

/-- Behind an operation that moves a message there is only what the session does next. -/
def Behind (k : ℕ) (rest : List (Op M)) : Op M → Prop
  | .registerAgent _ k' | .admitMessage _ k' _ | .pump _ k' => k' = k ∧ rest = []
  | .applied rc => rest = [.pump rc.agentId k]
  | _ => True

theorem rest_of_head (h : SessionProg k (op :: rest)) : Behind k rest op := by
  by_cases hquiet : Quiet op
  · cases op <;> trivial
  generalize hl : op :: rest = p at h
  cases h with
  | registering | admitting =>
    cases hl
    exact ⟨rfl, rfl⟩
  | handing =>
    cases hl
    trivial
  | serving ops tail hq htail =>
    cases ops with
    | nil =>
      cases htail with
      | closing => cases hl
      | waiting =>
        cases hl
        exact ⟨rfl, rfl⟩
      | finishing =>
        cases hl
        rfl
    | cons op' ops =>
      cases hl
      cases hquiet (hq _ mem_cons_self)

/-- A message is only moved by the session it came in on, at the head of its program. -/
theorem session_of_head (htidy : ∀ t, Tidy t (s.tasks t)) (hprog : s.tasks t = op :: rest)
    (hop : ¬Quiet op) : ∃ k, t = .session k ∧ Behind k rest op := by
  have ht := htidy t
  rw [hprog] at ht
  cases t with
  | session k => exact ⟨k, rfl, rest_of_head ht⟩
  | submit | control | barrier | ticker | sweeper => cases hop (ht op mem_cons_self).1

/-! ## The fate of a delta -/

/-- What has become of a delta: it is merged, or dropped for one of three reasons.  A settled run
drops it only after the run was finalized. -/
inductive Fate (trace : List Event) (rc : Received) (runId : String) : Prop
  | merged : .merged rc runId ∈ trace → Fate trace rc runId
  | unknownRun : .dropped rc runId .unknownRun ∈ trace → Fate trace rc runId
  | undecodable : .dropped rc runId .undecodable ∈ trace → Fate trace rc runId
  | frozen (verdict : RunState) : .dropped rc runId .frozen ∈ trace →
    .finalized runId verdict ∈ trace → Fate trace rc runId

theorem Fate.mono {trace trace' : List Event} (h : Fate trace rc runId) (hsub : trace ⊆ trace') :
    Fate trace' rc runId := by
  cases h with
  | merged hm => exact .merged (hsub hm)
  | unknownRun hd => exact .unknownRun (hsub hd)
  | undecodable hd => exact .undecodable (hsub hd)
  | frozen verdict hd hf => exact .frozen verdict (hsub hd) (hsub hf)

def Carries (inner : Inner M) (rc : Received) (runId : String) : Op M → Prop
  | .applyAgentMessage rc' m => rc' = rc ∧ ∃ json, m = .metrics runId json
  | .deltaName rc' R _ | .deltaState rc' R _ => rc' = rc ∧ R = runId ∧ runId ∈ inner.runs
  | .deltaContributing rc' R _ | .deltaMerge rc' R _ => rc' = rc ∧ R = runId
  | _ => False

theorem Carries.mono {inner' : Inner M} (h : Carries inner rc runId op)
    (hruns : runId ∈ inner.runs → runId ∈ inner'.runs) : Carries inner' rc runId op := by
  cases op <;> try exact h
  case deltaName | deltaState => exact ⟨h.1, h.2.1, hruns h.2.2⟩

def SettledByFinalize (s : State M) : Prop :=
  ∀ runId run, s.shared.runs[runId]? = some run → run.state.isTerminal = true →
    ∃ verdict, .finalized runId verdict ∈ s.trace

theorem carries_exec (hs : SettledByFinalize s) (h : exec env s.shared op = some o)
    (hc : Carries s.shared rc runId op) :
    Fate (o.events ++ s.trace) rc runId ∨ ∃ op' ∈ o.ops, Carries o.shared rc runId op' := by
  cases op <;> try exact hc.elim
  case applyAgentMessage rc' m =>
    obtain ⟨rfl, json, rfl⟩ := hc
    cases h
    unfold applyAgentMessage
    dsimp only
    split
    · exact .inl (.unknownRun (by simp))
    · rename_i run hr
      split
      · exact .inl (.undecodable (by simp))
      · refine .inr ⟨_, mem_singleton_self _, rfl, rfl, ?_⟩
        rw [Std.ExtTreeMap.mem_iff_isSome_getElem?, hr]
        rfl
  case deltaName rc' R delta =>
    obtain ⟨rfl, rfl, hR⟩ := hc
    cases h
    exact .inr ⟨_, mem_singleton_self _, rfl, rfl, hR⟩
  case deltaState rc' R delta =>
    obtain ⟨rfl, rfl, hR⟩ := hc
    simp only [exec] at h
    rcases withState_cases h with ⟨hnone, -⟩ | ⟨run, hr, -, rfl⟩
    · rw [Std.ExtTreeMap.mem_iff_isSome_getElem?, hnone] at hR
      cases hR
    · by_cases ht : run.state.isTerminal = true
      · obtain ⟨verdict, hfin⟩ := hs R run hr ht
        rw [if_pos ht]
        exact .inl (.frozen verdict (by simp) (by simp [hfin]))
      · rw [if_neg ht]
        exact .inr ⟨_, mem_singleton_self _, rfl, rfl⟩
  case deltaContributing rc' R delta =>
    obtain ⟨rfl, rfl⟩ := hc
    cases h
    exact .inr ⟨_, mem_singleton_self _, rfl, rfl⟩
  case deltaMerge rc' R delta =>
    obtain ⟨rfl, rfl⟩ := hc
    cases h
    exact .inl (.merged (by simp))

theorem settledByFinalize_exec (hs : SettledByFinalize s) (h : exec env s.shared op = some o) :
    SettledByFinalize (s.commit t rest o) := by
  intro runId run hr ht
  have hold : ∀ run₀, s.shared.runs[runId]? = some run₀ → run₀.state.isTerminal = true →
      ∃ verdict, .finalized runId verdict ∈ o.events ++ s.trace := by
    intro run₀ hr₀ ht₀
    obtain ⟨verdict, hv⟩ := hs runId run₀ hr₀ ht₀
    exact ⟨verdict, mem_append_right _ hv⟩
  rcases exec_run h hr with hr | ⟨run₀, hr₀, heff⟩ | ⟨sub, selected, -, -, rfl⟩
  · exact hold run hr ht
  · rcases heff.terminal_cases ht with ht | ⟨verdict, rfl, -, hlive⟩
    · exact hold run₀ hr₀ ht
    · simp only [exec] at h
      obtain ⟨-, rfl⟩ := withState_some h hr₀
      rw [if_neg (by simp [hlive])]
      exact ⟨verdict, by simp [Tasks.State.commit]⟩
  · cases ht

/-! ## The messages of one process -/

/-- A message with a sequence number from the process `inc` of the agent `a`. -/
structure Durable (a inc : String) (rc : Received) : Prop where
  agentId_eq : rc.agentId = a
  incarnation_eq : rc.incarnation = inc
  seq_ne : rc.seq ≠ 0

def handling (p : List (Op M)) : List Received :=
  p.filterMap fun
    | .applied rc => some rc
    | _ => none

theorem mem_handling {p : List (Op M)} : rc ∈ handling p ↔ .applied rc ∈ p := by
  unfold handling
  rw [mem_filterMap]
  constructor
  · rintro ⟨op, hop, he⟩
    cases op <;> simp only [reduceCtorEq, some.injEq] at he
    exact he ▸ hop
  · exact fun h => ⟨_, h, rfl⟩

/-- Another session of the agent is still applying a message with a sequence number. -/
def applyingElsewhere (a : String) (s : State M) (k : ℕ) : Bool :=
  (List.range (s.shared.sessionCounter + 1)).any fun k' =>
    k' != k && (handling (s.tasks (.session k'))).any fun rc => rc.agentId == a && rc.seq != 0

theorem applyingElsewhere_eq_false (h : applyingElsewhere a s k = false) (hk : k' ≠ k)
    (hopen : k' ≤ s.shared.sessionCounter) (hrc : .applied rc ∈ s.tasks (.session k'))
    (ha : rc.agentId = a) : rc.seq = 0 := by
  simp only [applyingElsewhere, List.any_eq_false, Bool.and_eq_true, List.any_eq_true, bne_iff_ne,
    beq_iff_eq, not_and, not_exists] at h
  have hseq := h k' (List.mem_range.2 (by omega)) hk rc (mem_handling.2 hrc) ha
  simpa using hseq

/-- Steps that keep the messages of the process in order: while `inc` is registered no other
process takes its agent id, and no fresh message of the agent is admitted while another of its
sessions is still applying one. -/
def orderly (a inc : String) (s : State M) : Action M → Bool
  | .step (.session k) _ =>
    match s.tasks (.session k), s.shared.agents.fence a with
    | .registerAgent reg _ :: _, some f =>
      decide (reg.agentId = a → f.incarnation = inc → reg.incarnation = inc)
    | .admitMessage a' _ msg :: _, some f =>
      decide (a' = a → f.session = k → f.lastSeq < msg.seq → applyingElsewhere a s k = false)
    | _, _ => true
  | _ => true

/-- What a log says about a message of the process when it is admitted, taken up and finished. -/
def Past (a inc : String) : Event → List Event → Prop
  | .admitted rc, l => Durable a inc rc → ∀ rc', Durable a inc rc' → .admitted rc' ∈ l →
      rc'.seq < rc.seq ∧ .applied rc' ∈ l
  | .applying rc, l => .admitted rc ∈ l
  | .applied rc, l => ∀ runId, rc.subject = .delta runId → Fate l rc runId
  | _, _ => True

structure Ordered (a inc : String) (s : State M) : Prop where
  tidy : ∀ t, Tidy t (s.tasks t)
  /-- Sessions are numbered as they open. -/
  unopened : ∀ k, s.shared.sessionCounter < k → s.tasks (.session k) = []
  settled : SettledByFinalize s
  /-- The cursor is past every message admitted. -/
  cursor : ∀ rc, Durable a inc rc → .admitted rc ∈ s.trace →
    ∃ f, s.shared.agents.fence a = some f ∧ f.incarnation = inc ∧ rc.seq ≤ f.lastSeq
  /-- A message admitted is finished, or some session has it. -/
  handled : ∀ rc, Durable a inc rc → .admitted rc ∈ s.trace →
    .applied rc ∈ s.trace ∨ ∃ k, .applied rc ∈ s.tasks (.session k)
  source : ∀ t rc m, .applyAgentMessage rc m ∈ s.tasks t → .admitted rc ∈ s.trace
  /-- The delta in a message under way is decided, or ahead. -/
  fate : ∀ k rc runId, rc.subject = .delta runId → .applied rc ∈ s.tasks (.session k) →
    Fate s.trace rc runId ∨ ∃ op ∈ s.tasks (.session k), Carries s.shared rc runId op
  history : Tasks.Explained (Past a inc) s.trace

/-- The step in which the message `rc` is admitted, against the fence `f`. -/
structure Admits (s : State M) (t : TaskId) (op : Op M) (rest : List (Op M)) (o : Outcome M)
    (rc : Received) (msg : AgentMessage (AgentMsg M.Bytes)) (f : Agents.Fence)
    (acks : List Event) : Prop where
  op_eq : op = .admitMessage rc.agentId rc.session msg
  task_eq : t = .session rc.session
  rest_eq : rest = []
  fence_eq : s.shared.agents.fence rc.agentId = some f
  session_eq : f.session = rc.session
  incarnation_eq : f.incarnation = rc.incarnation
  fresh : rc.seq = 0 ∨ f.lastSeq < rc.seq
  seq_eq : msg.seq = rc.seq
  subject_eq : msg.msg.subject = rc.subject
  events_eq : o.events = acks ++ [.admitted rc]
  acks_only : ∀ rc', .admitted rc' ∉ acks
  ops_eq : o.ops = [.applyAgentMessage rc msg.msg, .applied rc, .pump rc.agentId rc.session]

section

variable (h : Ordered a inc s) (hprog : s.tasks t = op :: rest)
  (hexec : exec env s.shared op = some o)

include h hprog

theorem Ordered.admitting {a' : String} {msg : AgentMessage (AgentMsg M.Bytes)}
    (hop : op = .admitMessage a' k' msg) : t = .session k' ∧ rest = [] := by
  subst hop
  obtain ⟨k, rfl, rfl, hrest⟩ := session_of_head h.tidy hprog fun hq => hq
  exact ⟨rfl, hrest⟩

include hexec

theorem Ordered.admits_of_event (hrc : .admitted rc ∈ o.events) :
    ∃ msg f acks, Admits s t op rest o rc msg f acks := by
  obtain ⟨msg, hop⟩ := exec_events hexec _ hrc
  obtain ⟨ht, hrest⟩ := h.admitting hprog hop
  subst hop
  cases hexec
  obtain ⟨acks, events, he, hacks, hp⟩ := pumped env s.shared rc.agentId rc.session msg
  have hno : ∀ rc', .admitted rc' ∉ acks := by
    intro rc' hm
    obtain ⟨n, hn⟩ := hacks _ hm
    cases hn
  generalize hops : (admitMessage env s.shared rc.agentId rc.session msg).ops = ops at hp
  rw [he] at hrc
  cases hp with
  | apply f hf hs hinc hseq =>
    have hrc' : rc = received s.shared rc.agentId rc.session msg := by
      rcases mem_append.1 hrc with hm | hm
      · exact absurd hm (hno rc)
      · exact Event.admitted.inj (mem_singleton.1 hm)
    have hseq' : msg.seq = rc.seq := by rw [hrc']; rfl
    have hsub : msg.msg.subject = rc.subject := by rw [hrc']; rfl
    refine ⟨msg, f, acks, ⟨rfl, ht, hrest, hf, hs, ?_, hseq' ▸ hseq, hseq', hsub, ?_, hno, ?_⟩⟩
    · rw [hrc', hinc]
    · rw [he, ← hrc']
    · rw [hops, ← hrc']
  | duplicate | stale =>
    rw [append_nil] at hrc
    exact absurd hrc (hno rc)

omit h hprog in
theorem admitted_of_ops (hrc : .applied rc ∈ o.ops ∨ ∃ m, .applyAgentMessage rc m ∈ o.ops) :
    .admitted rc ∈ o.events := by
  have hop : ∃ msg, op = .admitMessage rc.agentId rc.session msg := by
    rcases hrc with hm | ⟨m, hm⟩
    · exact exec_ops hexec _ hm
    · obtain ⟨msg, hop, -⟩ := exec_ops hexec _ hm
      exact ⟨msg, hop⟩
  obtain ⟨msg, rfl⟩ := hop
  cases hexec
  obtain ⟨acks, events, he, -, hp⟩ := pumped env s.shared rc.agentId rc.session msg
  rw [he]
  generalize (admitMessage env s.shared rc.agentId rc.session msg).ops = ops at hp hrc
  cases hp with
  | apply f _ _ _ _ =>
    have hrc' : rc = received s.shared rc.agentId rc.session msg := by
      simpa [eq_comm] using hrc
    rw [← hrc']
    exact mem_append_right _ (mem_singleton_self _)
  | duplicate | stale => simp at hrc

theorem Ordered.source_exec (t' : TaskId) (rc : Received) (m : AgentMsg M.Bytes)
    (hm : .applyAgentMessage rc m ∈ (s.commit t rest o).tasks t') :
    .admitted rc ∈ o.events ++ s.trace := by
  rcases mem_commit hprog hexec hm with ⟨hold, -⟩ | hbegins | ⟨rfl, hnew⟩
  · exact mem_append_right _ (h.source t' rc m hold)
  · exact hbegins.elim
  · exact mem_append_left _ (admitted_of_ops hexec (.inr ⟨m, hnew⟩))

theorem Ordered.handled_exec (rc : Received) (hd : Durable a inc rc)
    (hadm : .admitted rc ∈ o.events ++ s.trace) :
    .applied rc ∈ o.events ++ s.trace ∨
      ∃ k, .applied rc ∈ (s.commit t rest o).tasks (.session k) := by
  rcases mem_append.1 hadm with hnew | hold
  · obtain ⟨msg, f, acks, ha⟩ := h.admits_of_event hprog hexec hnew
    refine .inr ⟨rc.session, ?_⟩
    rw [commit_tasks_session hexec, if_pos ha.task_eq.symm, ha.ops_eq]
    simp
  · rcases h.handled rc hd hold with happ | ⟨k, hk⟩
    · exact .inl (mem_append_right _ happ)
    · by_cases ht : .session k = t
      · subst ht
        rw [hprog] at hk
        rcases mem_cons.1 hk with rfl | hk
        · cases hexec
          exact .inl (mem_append_left _ (mem_singleton_self _))
        · refine .inr ⟨k, ?_⟩
          rw [commit_tasks_session hexec, if_pos rfl]
          exact mem_append_right _ hk
      · refine .inr ⟨k, ?_⟩
        rw [commit_tasks_session hexec, if_neg ht]
        exact hk

theorem Ordered.fate_exec (k : ℕ) (rc : Received) (runId : String)
    (hsub : rc.subject = .delta runId)
    (hm : .applied rc ∈ (s.commit t rest o).tasks (.session k)) :
    Fate (o.events ++ s.trace) rc runId ∨
      ∃ op ∈ (s.commit t rest o).tasks (.session k), Carries o.shared rc runId op := by
  have hold : .applied rc ∈ s.tasks (.session k) → Fate (o.events ++ s.trace) rc runId ∨
      ∃ op' ∈ s.tasks (.session k), Carries s.shared rc runId op' := fun hm =>
    (h.fate k rc runId hsub hm).imp_left (·.mono (subset_append_right _ _))
  rw [commit_tasks_session hexec] at hm ⊢
  split_ifs at hm ⊢ with ht
  · subst ht
    rw [hprog] at hold
    rcases mem_append.1 hm with hnew | hrest
    · obtain ⟨msg, f, acks, ha⟩ :=
        h.admits_of_event hprog hexec (admitted_of_ops hexec (.inl hnew))
      refine .inr ⟨.applyAgentMessage rc msg.msg, mem_append_left _ ?_, rfl, ?_⟩
      · rw [ha.ops_eq]
        exact mem_cons_self
      · have hmsg := ha.subject_eq.trans hsub
        cases hmm : msg.msg with
        | metrics R json =>
          rw [hmm] at hmsg
          cases hmsg
          exact ⟨json, rfl⟩
        | event ev =>
          rw [hmm] at hmsg
          simp only [AgentMsg.subject] at hmsg
          split_ifs at hmsg
        | register | heartbeat | controlAck | assignmentReady =>
          rw [hmm] at hmsg
          cases hmsg
    · rcases hold (mem_cons_of_mem _ hrest) with hf | ⟨op', hop', hc⟩
      · exact .inl hf
      rcases mem_cons.1 hop' with rfl | hop'
      · rcases carries_exec h.settled hexec hc with hf | ⟨op'', hop'', hc'⟩
        · exact .inl hf
        · exact .inr ⟨op'', mem_append_left _ hop'', hc'⟩
      · exact .inr ⟨op', mem_append_right _ hop', hc.mono (exec_mem_runs hexec)⟩
  · refine (hold hm).imp_right ?_
    rintro ⟨op', hop', hc⟩
    exact ⟨op', hop', hc.mono (exec_mem_runs hexec)⟩

section

variable (hguard : orderly a inc s (.step t env) = true)
include hguard

theorem Ordered.cursor_exec (rc : Received)
    (hd : Durable a inc rc) (hadm : .admitted rc ∈ o.events ++ s.trace) :
    ∃ f, o.shared.agents.fence a = some f ∧ f.incarnation = inc ∧ rc.seq ≤ f.lastSeq := by
  rcases mem_append.1 hadm with hnew | hold
  · obtain ⟨msg, f, acks, ha⟩ := h.admits_of_event hprog hexec hnew
    obtain rfl := hd.agentId_eq
    have hop := ha.op_eq
    subst hop
    cases hexec
    have hf := (Agents.admitMessage_live ha.fence_eq msg.seq env.now).fence_eq
    rw [ha.session_eq, ha.seq_eq] at hf
    refine ⟨{ f with lastSeq := max f.lastSeq rc.seq }, ?_,
      ha.incarnation_eq.trans hd.incarnation_eq, Nat.le_max_right _ _⟩
    rw [agents_admitMessage, ha.seq_eq, hf, ha.session_eq]
  · obtain ⟨f, hf, hinc, hle⟩ := h.cursor rc hd hold
    obtain ⟨e, he, rfl⟩ := map_eq_some_iff.1 hf
    obtain ⟨e', he', heff⟩ := exec_entry hexec he
    refine ⟨⟨e'.session, e'.incarnation, e'.lastSeq⟩, by simp [Agents.fence, he'], ?_⟩
    cases heff with
    | same | heartbeat | disconnected | released | reserved => exact ⟨hinc, hle⟩
    | admitted msg => exact ⟨hinc, hle.trans (Nat.le_max_left _ _)⟩
    | registered reg k hid =>
      obtain ⟨k', rfl, -⟩ := session_of_head h.tidy hprog fun hq => hq
      simp only [orderly, hprog, hf, decide_eq_true_eq] at hguard
      have hinc' := hguard hid hinc
      have heinc : e.incarnation = inc := hinc
      exact ⟨hinc', by simpa [registeredEntry, hid, he, Option.filter, heinc, hinc'] using hle⟩

theorem Ordered.past_admitted {rc' : Received}
    (hd : Durable a inc rc) (hd' : Durable a inc rc') (hrc : .admitted rc ∈ o.events)
    (hadm : .admitted rc' ∈ s.trace) : rc'.seq < rc.seq ∧ .applied rc' ∈ s.trace := by
  obtain ⟨msg, f, acks, ha⟩ := h.admits_of_event hprog hexec hrc
  have hfence := ha.fence_eq
  rw [hd.agentId_eq] at hfence
  obtain ⟨f', hf', hinc', hle⟩ := h.cursor rc' hd' hadm
  cases hfence.symm.trans hf'
  have hlt : f.lastSeq < rc.seq := ha.fresh.resolve_left hd.seq_ne
  refine ⟨by omega, (h.handled rc' hd' hadm).resolve_right ?_⟩
  rintro ⟨k, hk⟩
  have htask := ha.task_eq
  subst htask
  by_cases hkk : k = rc.session
  · subst hkk
    rw [hprog, ha.op_eq, ha.rest_eq] at hk
    exact absurd (mem_singleton.1 hk) nofun
  · have hopen : k ≤ s.shared.sessionCounter := by
      by_contra hlt
      rw [h.unopened k (by omega)] at hk
      cases hk
    have hop := ha.op_eq
    subst hop
    simp only [orderly, hprog, hfence, decide_eq_true_eq] at hguard
    have hfree := hguard hd.agentId_eq ha.session_eq (by rw [ha.seq_eq]; exact hlt)
    exact hd'.seq_ne (applyingElsewhere_eq_false hfree hkk hopen hk hd'.agentId_eq)

theorem Ordered.history_exec : Tasks.Explained (Past a inc) (o.events ++ s.trace) := by
  refine h.history.append fun l₁ e l₂ hl => ?_
  have he : e ∈ o.events := by simp [hl]
  have hlogs := exec_events hexec e he
  cases e <;> try exact trivial
  case admitted rc =>
    intro hd rc' hd' hadm
    obtain ⟨msg, f, acks, ha⟩ := h.admits_of_event hprog hexec he
    obtain ⟨-, -, rfl⟩ := (append_cons_inj_of_notMem (ha.acks_only rc) not_mem_nil).1
      (ha.events_eq.symm.trans hl)
    exact h.past_admitted hprog hexec hguard hd hd' he hadm
  case applying rc =>
    obtain ⟨msg, rfl⟩ := hlogs
    refine mem_append_right _ (h.source t rc msg ?_)
    rw [hprog]
    exact mem_cons_self
  case applied rc =>
    intro runId hsub
    obtain rfl := hlogs
    obtain ⟨k, rfl, rfl⟩ := session_of_head h.tidy hprog fun hq => hq
    have hold := h.fate k rc runId hsub (by rw [hprog]; exact mem_cons_self)
    rw [hprog] at hold
    rcases hold with hf | ⟨op', hop', hc⟩
    · exact hf.mono (subset_append_right _ _)
    · simp only [mem_cons, not_mem_nil, or_false] at hop'
      rcases hop' with rfl | rfl <;> exact hc.elim

theorem Ordered.exec_step : Ordered a inc (s.commit t rest o) where
  tidy := tidy_step h.tidy (.exec hprog hexec)
  unopened := unopened_step h.unopened (.exec hprog hexec)
  settled := settledByFinalize_exec h.settled hexec
  cursor := h.cursor_exec hprog hexec hguard
  handled := h.handled_exec hprog hexec
  source := h.source_exec hprog hexec
  fate := h.fate_exec hprog hexec
  history := h.history_exec hprog hexec hguard

end

end

theorem Ordered.opens {act : Action M} (h : Ordered a inc s) (hstep : Step s act s')
    (ho : Opens s act t op s') : Ordered a inc s' where
  tidy := tidy_step h.tidy hstep
  unopened := unopened_step h.unopened hstep
  settled runId run hr := ho.trace ▸ h.settled runId run (ho.runs ▸ hr)
  cursor rc hd hadm := ho.agents ▸ h.cursor rc hd (ho.trace ▸ hadm)
  handled rc hd hadm := by
    rw [ho.trace] at hadm ⊢
    refine (h.handled rc hd hadm).imp_right ?_
    rintro ⟨k, hk⟩
    refine ⟨k, ?_⟩
    rw [ho.tasks, if_neg]
    · exact hk
    · rintro rfl
      rw [h.unopened k (ho.session k rfl).1] at hk
      cases hk
  source t' rc m hm := by
    rcases ho.mem hm with hold | ⟨rfl, rfl⟩
    · exact ho.trace ▸ h.source t' rc m hold
    · exact ho.begins.elim
  fate k rc runId hsub hm := by
    rw [ho.tasks] at hm ⊢
    rw [ho.trace]
    split_ifs at hm ⊢
    · obtain rfl := mem_singleton.1 hm
      exact ho.begins.elim
    · refine (h.fate k rc runId hsub hm).imp_right ?_
      rintro ⟨op', hop', hc⟩
      exact ⟨op', hop', hc.mono fun hR => ho.runs ▸ hR⟩
  history := ho.trace ▸ h.history

theorem Ordered.step {act : Action M} (h : Ordered a inc s) (hguard : orderly a inc s act = true)
    (hstep : Step s act s') : Ordered a inc s' := by
  rcases step_cases hstep with ⟨t, hprog, hexec, -⟩ | ⟨t, op, ho⟩
  · exact h.exec_step hprog hexec hguard
  · exact h.opens hstep ho

theorem tidy_initial (liveness : ℕ) (t : TaskId) : Tidy t ((initial M liveness).tasks t) := by
  cases t with
  | session k => exact .serving [] [] (forall_mem_nil _) .closing
  | submit | control | barrier | ticker | sweeper =>
    intro op hop
    rw [initial_tasks liveness _ op hop]
    trivial

theorem ordered_initial (a inc : String) (liveness : ℕ) : Ordered a inc (initial M liveness) := by
  have htasks : ∀ t, ∀ op ∈ (initial M liveness).tasks t, op = .sweep := initial_tasks liveness
  refine ⟨tidy_initial liveness, fun k _ => rfl, ?_, by simp [initial], by simp [initial],
    ?_, ?_, trivial⟩
  · intro runId run hr
    cases hr
  · intro t rc m hm
    cases htasks t _ hm
  · intro k rc runId _ hm
    cases htasks _ _ hm

theorem ordered_of_reachable
    (h : ((machine M).guarded fun s act => orderly a inc s act = true).Reachable s) :
    Ordered a inc s :=
  guarded_invariant (ordered_initial a inc) (fun _ hguard hs => hs.step hguard) h

/-- Messages of one process take effect in order: when the controller takes up a message, it has
finished every admitted message with a smaller sequence number, and it has merged the delta in such
a message unless it could not use it or the run was finalized before.  No step admits a message
while another session of the agent is still applying one. -/
theorem effects_in_order (M : Metering) (a inc : String) {s : State M}
    (h : ((machine M).guarded fun s act => orderly a inc s act = true).Reachable s)
    {later earlier : List Event} {rc rc' : Received}
    (hs : s.trace = later ++ .applying rc :: earlier) (hd : Durable a inc rc)
    (hd' : Durable a inc rc') (hadm : .admitted rc' ∈ s.trace) (hlt : rc'.seq < rc.seq) :
    .applied rc' ∈ earlier ∧ ∀ runId, rc'.subject = .delta runId → Fate earlier rc' runId := by
  have hist := (ordered_of_reachable h).history
  have hrc : .admitted rc ∈ earlier := hist.of_eq_append hs
  obtain ⟨l₁, l₂, he⟩ := append_of_mem hrc
  have hs' : s.trace = (later ++ .applying rc :: l₁) ++ .admitted rc :: l₂ := by
    rw [hs, he, append_assoc, cons_append]
  have hrc' : .admitted rc' ∈ l₂ := by
    rw [hs'] at hadm
    rcases mem_append.1 hadm with hm | hm
    · obtain ⟨m₁, m₂, hm⟩ := append_of_mem hm
      rw [hm, append_assoc, cons_append] at hs'
      have hgt := (hist.of_eq_append hs' hd' rc hd (by simp)).1
      omega
    · rcases mem_cons.1 hm with he' | hm
      · cases he'
        omega
      · exact hm
  have happ : .applied rc' ∈ earlier := by
    rw [he]
    exact mem_append_right _ (mem_cons_of_mem _
      (hist.of_eq_append hs' hd rc' hd' hrc').2)
  refine ⟨happ, fun runId hsub => ?_⟩
  obtain ⟨m₁, m₂, hm⟩ := append_of_mem happ
  have hfate : Fate m₂ rc' runId := by
    have hs'' : s.trace = (later ++ .applying rc :: m₁) ++ .applied rc' :: m₂ := by
      rw [hs, hm, append_assoc, cons_append]
    exact hist.of_eq_append hs'' runId hsub
  refine hfate.mono fun e he' => ?_
  rw [hm]
  exact mem_append_right _ (mem_cons_of_mem _ he')

/-- The agent reconnects after its delta, and reports the end of the run over the new session. -/
def reconnect : List (Action listing) :=
  [.connect (registration "a" "r")] ++ steps (.session 2) 9 ++
  [inbound 2 3 (.event { runId := "r", kind := .finished, detail := "" })] ++
  steps (.session 2) 10

def deltaReceived : Received where
  agentId := "a"
  incarnation := "i"
  session := 1
  seq := 2
  subject := .delta "r"

def endReceived : Received where
  agentId := "a"
  incarnation := "i"
  session := 2
  seq := 3
  subject := .terminal "r"

theorem effects_in_order_reconnect :
    ∃ s later earlier,
      ((machine listing).guarded fun s act => orderly "a" "i" s act = true).Reachable s ∧
      s.trace = later ++ .applying endReceived :: earlier ∧ .applied deltaReceived ∈ earlier ∧
      Fate earlier deltaReceived "r" := by
  obtain ⟨s, hr, hs, hadm⟩ := Machine.exists_reachable_of_run
    ((machine listing).guarded fun s act => orderly "a" "i" s act = true)
    (initialized 10)
    (startedRun ++ [inbound 1 2 (.metrics "r" 7)] ++ steps (.session 1) 10 ++ reconnect)
    (fun s => s.trace = s.trace.take 2 ++ .applying endReceived :: s.trace.drop 3 ∧
      .admitted deltaReceived ∈ s.trace) (by decide)
  obtain ⟨happ, hfate⟩ := effects_in_order listing "a" "i" hr hs ⟨rfl, rfl, by decide⟩
    ⟨rfl, rfl, by decide⟩ hadm (by decide)
  exact ⟨s, _, _, hr, hs, happ, hfate "r" rfl⟩

/-- Without the condition a delta is lost: the old session has admitted and acknowledged it, but
before it applies it the new session finalizes the run, and the settled run drops the delta. -/
theorem overtaken_delta_is_lost :
    ∃ s later earlier, (machine listing).Reachable s ∧
      s.trace = later ++ .applying endReceived :: earlier ∧
      .admitted deltaReceived ∈ earlier ∧ .sent 1 (.msg (.uplinkAck deltaReceived.seq)) ∈ earlier ∧
      deltaReceived.seq < endReceived.seq ∧ .applied deltaReceived ∉ earlier ∧
      .dropped deltaReceived "r" .frozen ∈ later ∧ .merged deltaReceived "r" ∉ s.trace := by
  obtain ⟨s, hr, hs⟩ := Machine.exists_reachable_of_run (machine listing) (initialized 10)
    (startedRun ++ [inbound 1 2 (.metrics "r" 7)] ++ steps (.session 1) 1 ++ reconnect ++
      steps (.session 1) 4)
    (fun s => s.trace = s.trace.take 5 ++ .applying endReceived :: s.trace.drop 6 ∧
      .admitted deltaReceived ∈ s.trace.drop 6 ∧
      .sent 1 (.msg (.uplinkAck deltaReceived.seq)) ∈ s.trace.drop 6 ∧
      deltaReceived.seq < endReceived.seq ∧ .applied deltaReceived ∉ s.trace.drop 6 ∧
      .dropped deltaReceived "r" .frozen ∈ s.trace.take 5 ∧
      .merged deltaReceived "r" ∉ s.trace) (by decide)
  exact ⟨s, _, _, hr, hs⟩

end Controller

end Loadr
