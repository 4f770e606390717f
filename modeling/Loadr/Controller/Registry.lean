import Mathlib.Data.Option.Basic
import Loadr.Protocol

/-!
# The controller's agent registry

The table behind the controller's `agents` lock, with the two operations that move an agent's uplink
cursor: `Agents.register`, the locked part of `register_agent`, and `Agents.admitMessage`, the
function `admit` of the source.

An agent's downlink sender is the channel of the session it registered on, so the entry's `session`
stands for it.  `Agents.fence` is what `admitMessage` reads of an entry.
-/

namespace Loadr

structure AgentEntry where
  name : String
  labels : StringMap
  /-- Identifies the agent process; a restart mints a new one. -/
  incarnation : String
  lastHeartbeat : ℕ
  activeVus : ℕ
  connected : Bool
  session : ℕ
  /-- Highest uplink sequence admitted for `incarnation`. -/
  lastSeq : ℕ
  activeRun : Option String
deriving DecidableEq

abbrev Agents := Std.ExtTreeMap String AgentEntry compare

inductive Followup
  | none
  | terminateParticipation (runId : String)
  | maybeReplayAssignment (runId : String)
deriving DecidableEq, Repr

/-- What the locked part of `register_agent` hands to the rest. -/
structure Registration where
  superseded : Option AgentEntry
  restarted : Bool
  followup : Followup
deriving DecidableEq

inductive Admit
  | apply
  | duplicate
  | stale
deriving DecidableEq, Repr

/-- The outcome of `admit`: its verdict, the acknowledgement it offers to the live session's
downlink, and whether it warned of a gap in the agent's uplink sequence. -/
structure Admission where
  verdict : Admit
  ack : Option ℕ
  gap : Bool
deriving DecidableEq, Repr

namespace Agents

/-- Where an agent's reservation goes on registration, and what follows from it. -/
def carryReservation (prev : Option AgentEntry) (reg : Register) (restarted : Bool) :
    Option String × Followup :=
  match prev.bind AgentEntry.activeRun with
  | some runId =>
    if restarted then (none, .terminateParticipation runId)
    else if reg.resumeRunId.isEmpty then (some runId, .maybeReplayAssignment runId)
    else (some runId, .none)
  | none => (none, .none)

def register (agents : Agents) (reg : Register) (session now : ℕ) : Registration × Agents :=
  let prev := agents[reg.agentId]?
  -- only a reconnect of the same process continues its uplink sequence
  let lastSeq := ((prev.filter fun p => p.incarnation == reg.incarnation).map (·.lastSeq)).getD 0
  let restarted := prev.any fun p => p.incarnation != reg.incarnation
  let reservation := carryReservation prev reg restarted
  ({ superseded := prev, restarted := restarted, followup := reservation.2 },
    agents.insert reg.agentId
      { name := reg.agentName
        labels := reg.labels
        incarnation := reg.incarnation
        lastHeartbeat := now
        activeVus := 0
        connected := true
        session := session
        lastSeq := lastSeq
        activeRun := reservation.1 })

/-- Fence one inbound message against the live session, move the deduplication cursor and
acknowledge. -/
def admitMessage (agents : Agents) (agentId : String) (session seq now : ℕ) : Admission × Agents :=
  match agents[agentId]? with
  | none => ({ verdict := .stale, ack := none, gap := false }, agents)
  | some entry =>
    if entry.session ≠ session then ({ verdict := .stale, ack := none, gap := false }, agents)
    else if seq = 0 then
      -- ephemeral: nothing to deduplicate, but re-advertise the cursor
      ({ verdict := .apply, ack := if 0 < entry.lastSeq then some entry.lastSeq else none,
         gap := false },
        agents.insert agentId { entry with lastHeartbeat := now })
    else if seq ≤ entry.lastSeq then
      ({ verdict := .duplicate, ack := some entry.lastSeq, gap := false },
        agents.insert agentId { entry with lastHeartbeat := now })
    else
      -- a gap is accepted with a warning rather than wedging the agent behind it
      ({ verdict := .apply, ack := some seq, gap := entry.lastSeq + 1 < seq },
        agents.insert agentId { entry with lastHeartbeat := now, lastSeq := seq })

/-- Only the session that is still current may mark the agent as gone. -/
def markDisconnected (agents : Agents) (agentId : String) (session : ℕ) : Agents :=
  match agents[agentId]? with
  | none => agents
  | some entry =>
    if entry.session = session then agents.insert agentId { entry with connected := false }
    else agents

/-! ## The fence -/

/-- What decides whether a message is admitted: the live session, the process it belongs to and the
deduplication cursor. -/
structure Fence where
  session : ℕ
  incarnation : String
  lastSeq : ℕ
deriving DecidableEq, Repr

def fence (agents : Agents) (agentId : String) : Option Fence :=
  agents[agentId]?.map fun e =>
    { session := e.session, incarnation := e.incarnation, lastSeq := e.lastSeq }

variable {agents : Agents} {agentId id : String} {session seq now : ℕ} {f : Fence}

theorem fence_insert_self (agents : Agents) (id : String) (e : AgentEntry) :
    fence (agents.insert id e) id =
      some { session := e.session, incarnation := e.incarnation, lastSeq := e.lastSeq } := by
  simp [fence]

theorem fence_insert_of_ne (h : id ≠ agentId) (agents : Agents) (e : AgentEntry) :
    fence (agents.insert agentId e) id = agents.fence id := by
  simp [fence, Std.ExtTreeMap.getElem?_insert, Ne.symm h]

/-- Registration moves the fence to the new session; only a reconnect of the same process keeps the
cursor. -/
theorem fence_register_self (agents : Agents) (reg : Register) (session now : ℕ) :
    (agents.register reg session now).2.fence reg.agentId =
      some { session := session, incarnation := reg.incarnation
             lastSeq := (((agents.fence reg.agentId).filter fun f =>
               f.incarnation == reg.incarnation).map Fence.lastSeq).getD 0 } := by
  have hseq : ((agents.fence reg.agentId).filter fun f =>
      f.incarnation == reg.incarnation).map Fence.lastSeq =
      (agents[reg.agentId]?.filter fun p => p.incarnation == reg.incarnation).map (·.lastSeq) := by
    unfold fence
    cases agents[reg.agentId]? with
    | none => rfl
    | some e => by_cases h : e.incarnation = reg.incarnation <;> simp [Option.filter, h]
  rw [hseq]
  exact fence_insert_self _ _ _

theorem fence_register_of_ne {reg : Register} (h : id ≠ reg.agentId) (agents : Agents)
    (session now : ℕ) : (agents.register reg session now).2.fence id = agents.fence id :=
  fence_insert_of_ne h _ _

theorem getElem?_admitMessage (agents : Agents) (a : String) (k seq now : ℕ) (id : String) :
    (agents.admitMessage a k seq now).2[id]? = agents[id]?.map fun e =>
      if id = a ∧ e.session = k then
        { e with lastHeartbeat := now, lastSeq := max e.lastSeq seq } else e := by
  unfold admitMessage
  by_cases hid : id = a
  · subst hid
    cases he : agents[id]? with
    | none => simpa using he
    | some e =>
      dsimp only
      split_ifs with hk
      · simpa [hk] using he
      all_goals
        simp [not_not.1 hk]
        omega
  · cases agents[a]? with
    | none => simp [hid]
    | some e =>
      dsimp only
      split_ifs <;> simp [hid, Std.ExtTreeMap.getElem?_insert, Ne.symm hid]

theorem fence_admitMessage_of_ne (h : id ≠ agentId) :
    (agents.admitMessage agentId session seq now).2.fence id = agents.fence id := by
  simp [fence, getElem?_admitMessage, h]

theorem admitMessage_stale (h : ∀ f, agents.fence agentId = some f → f.session ≠ session) :
    agents.admitMessage agentId session seq now =
      ({ verdict := .stale, ack := none, gap := false }, agents) := by
  unfold admitMessage
  cases he : agents[agentId]? with
  | none => rfl
  | some e =>
    have hs : e.session ≠ session := h _ (by rw [fence, he, Option.map_some])
    simp [hs]

/-- What `admitMessage` does with a message of the live session: it is applied exactly when it is
ephemeral or above the cursor, and the cursor moves to the highest sequence seen. -/
structure Admitted (f : Fence) (seq : ℕ) (r : Admission × Agents) (agentId : String) : Prop where
  fence_eq : r.2.fence agentId = some { f with lastSeq := max f.lastSeq seq }
  verdict_eq : r.1.verdict = if seq = 0 ∨ f.lastSeq < seq then .apply else .duplicate
  gap_eq : r.1.gap = decide (f.lastSeq + 1 < seq)
  ack_eq : ∀ a, r.1.ack = some a → a = max f.lastSeq seq

theorem admitMessage_live (hf : agents.fence agentId = some f) (seq now : ℕ) :
    Admitted f seq (agents.admitMessage agentId f.session seq now) agentId := by
  obtain ⟨e, he, rfl⟩ := Option.map_eq_some_iff.1 hf
  unfold admitMessage
  simp only [he, ne_eq, not_true_eq_false, if_false]
  by_cases h₀ : seq = 0
  · subst h₀
    simp only [if_true]
    constructor <;> simp [fence_insert_self]
  · by_cases h₁ : seq ≤ e.lastSeq
    · simp only [h₀, h₁, if_true, if_false]
      constructor <;> simp [fence_insert_self] <;> omega
    · simp only [h₀, h₁, if_false]
      constructor <;> simp [fence_insert_self] <;> omega

theorem fence_admitMessage (hf : agents.fence agentId = some f) (session seq now : ℕ) :
    ∃ n, (agents.admitMessage agentId session seq now).2.fence agentId =
      some { f with lastSeq := n } := by
  obtain ⟨e, he, rfl⟩ := Option.map_eq_some_iff.1 hf
  simp only [fence, getElem?_admitMessage, he, Option.map_some]
  split_ifs <;> exact ⟨_, rfl⟩

theorem getElem?_markDisconnected (agents : Agents) (a : String) (k : ℕ) (id : String) :
    (agents.markDisconnected a k)[id]? = agents[id]?.map fun e =>
      if id = a ∧ e.session = k then { e with connected := false } else e := by
  unfold markDisconnected
  by_cases hid : id = a
  · subst hid
    cases he : agents[id]? with
    | none => simpa using he
    | some e =>
      by_cases hk : e.session = k
      · simp [hk]
      · simpa [hk] using he
  · cases agents[a]? with
    | none => simp [hid]
    | some e =>
      dsimp only
      split_ifs
      · simp [hid, Std.ExtTreeMap.getElem?_insert, Ne.symm hid]
      · simp [hid]

theorem fence_markDisconnected (agents : Agents) (agentId : String) (session : ℕ) (id : String) :
    (agents.markDisconnected agentId session).fence id = agents.fence id := by
  rw [fence, getElem?_markDisconnected, Option.map_map]
  refine congrArg (agents[id]?.map ·) (funext fun e => ?_)
  dsimp only [Function.comp_apply]
  split_ifs <;> rfl

end Agents

end Loadr
