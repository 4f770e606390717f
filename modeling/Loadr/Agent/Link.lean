import Loadr.Lib.Machine
import Loadr.Lib.Replay
import Loadr.Agent.Uplink
import Loadr.Controller.Registry

/-!
# The uplink protocol

One agent process and the controller, joined by any number of sessions.  A session has a writer that
streams the window from the oldest unacknowledged message on, a FIFO of frames in flight that loses
a suffix when the session ends, and a downlink of acknowledgements.  Other processes may use the
registry too, as long as none takes the agent id over.

The heart of the invariant `Link.Inv` is that the frames of the live session never skip a sequence
number above the cursor (`Replay.Covers`).
-/

namespace Loadr

open Uplink List Option Function

variable {μ : Type}

structure Stream (μ : Type) where
  /-- The epoch of the session's writer, once the agent has rewound its window for it. -/
  epoch : Option ℕ := none
  connected : Bool := false
  frames : List (AgentMessage μ) := []
  acks : List ℕ := []
deriving DecidableEq

/-- An agent process, the registry and the sessions between them.  `accepted` logs the payloads the
window took in, `applied` the sequenced messages of this process that `admit` let through. -/
structure Link (μ : Type) where
  uplink : Uplink μ
  agents : Agents
  streams : ℕ → Stream μ
  /-- The sessions this process has registered. -/
  opened : List ℕ
  accepted : List μ
  applied : List (AgentMessage μ)

namespace Link

inductive Action (μ : Type)
  /-- `try_enqueue`, or one attempt of `enqueue`. -/
  | push (msg : AgentMessage μ)
  | close
  /-- The controller reads this process's `Register` on a new session. -/
  | register (reg : Register) (session now : ℕ)
  /-- The agent spawns the session's writer, which rewinds the window. -/
  | rewind (session : ℕ)
  /-- The session's writer takes its next message and puts it on the wire. -/
  | write (session : ℕ)
  /-- The session loop sends a heartbeat, past the window. -/
  | heartbeat (session : ℕ) (msg : μ)
  /-- The session ends; only the first `kept` frames in flight still arrive. -/
  | sever (session kept : ℕ)
  /-- The controller admits the oldest frame of a session; `acked` says whether the downlink had
  room for the acknowledgement. -/
  | receive (session now : ℕ) (acked : Bool)
  /-- The agent reads the oldest acknowledgement of a session. -/
  | ack (session : ℕ)
  | disconnect (agentId : String) (session : ℕ)
  /-- Another process registers: under another id, or under this one before this process did. -/
  | foreignRegister (reg : Register) (session now : ℕ)
  /-- The controller admits a frame of a session that is not this process's. -/
  | foreignReceive (agentId : String) (session seq now : ℕ)

def setStream (w : Link μ) (session : ℕ) (s : Stream μ) : Link μ :=
  { w with streams := Function.update w.streams session s }

/-- The controller's step on the frame `m` at the front of a session's stream. -/
def receiveFrame (id : String) (w : Link μ) (session now : ℕ) (acked : Bool) (m : AgentMessage μ)
    (rest : List (AgentMessage μ)) : Link μ :=
  let r := w.agents.admitMessage id session m.seq now
  let s := w.streams session
  { w with
    agents := r.2
    streams := Function.update w.streams session
      { s with frames := rest, acks := s.acks ++ if acked then r.1.ack.toList else [] }
    applied := if r.1.verdict = .apply ∧ m.seq ≠ 0 then w.applied ++ [m] else w.applied }

def next (encodedLen : AgentMessage μ → ℕ) (id : String) (w : Link μ) :
    Action μ → Option (Link μ)
  | .push msg =>
    match w.uplink.push encodedLen msg with
    | (.ok _, u) => some { w with uplink := u, accepted := w.accepted ++ [msg.msg] }
    | (.error _, u) => some { w with uplink := u }
  | .close => some { w with uplink := w.uplink.close }
  | .register reg session now =>
    -- the session counter never repeats a number
    if reg.agentId = id ∧ reg.incarnation = w.uplink.incarnation ∧ session ∉ w.opened then
      some { w with
        agents := (w.agents.register reg session now).2
        streams := Function.update w.streams session { connected := true }
        opened := session :: w.opened }
    else none
  | .rewind session =>
    if session ∈ w.opened ∧ (w.streams session).epoch = none then
      some { w.setStream session { w.streams session with epoch := some w.uplink.rewind.1 } with
        uplink := w.uplink.rewind.2 }
    else none
  | .write session =>
    (w.streams session).epoch.bind fun epoch =>
      match w.uplink.nextUnsent epoch with
      | (.message m, u) =>
        let s := w.streams session
        -- a writer that outlives its session still takes the message, which then reaches nobody
        let frames := if s.connected then s.frames ++ [m] else s.frames
        some { w.setStream session { s with frames := frames } with uplink := u }
      | (_, u) => some { w with uplink := u }
  | .heartbeat session msg =>
    let s := w.streams session
    if s.connected then
      some (w.setStream session { s with frames := s.frames ++ [{ seq := 0, msg := msg }] })
    else none
  | .sever session kept =>
    let s := w.streams session
    some (w.setStream session { s with connected := false, frames := s.frames.take kept })
  | .receive session now acked =>
    match (w.streams session).frames with
    | [] => none
    | m :: rest =>
      if session ∈ w.opened then some (w.receiveFrame id session now acked m rest) else none
  | .ack session =>
    match (w.streams session).acks with
    | [] => none
    | a :: rest =>
      some { w.setStream session { w.streams session with acks := rest } with
        uplink := w.uplink.ack a }
  | .disconnect agentId session =>
    some { w with agents := w.agents.markDisconnected agentId session }
  | .foreignRegister reg session now =>
    if reg.agentId ≠ id ∨ w.opened = [] ∧ reg.incarnation ≠ w.uplink.incarnation then
      some { w with agents := (w.agents.register reg session now).2 }
    else none
  | .foreignReceive agentId session seq now =>
    if agentId ≠ id ∨ session ∉ w.opened then
      some { w with agents := (w.agents.admitMessage agentId session seq now).2 }
    else none

/-- The process starts with an empty window and no session; whatever happened at the controller
before, the registry does not know this incarnation yet. -/
def Init (id : String) (w : Link μ) : Prop :=
  (∃ maxBytes maxMessages incarnation, w.uplink = withLimits maxBytes maxMessages incarnation) ∧
    (∀ f, w.agents.fence id = some f → f.incarnation ≠ w.uplink.incarnation) ∧
    w.streams = (fun _ => {}) ∧ w.opened = [] ∧ w.accepted = [] ∧ w.applied = []

def machine (encodedLen : AgentMessage μ → ℕ) (id : String) : Machine (Link μ) (Action μ) where
  init := Init id
  next := next encodedLen id

/-- The controller's deduplication cursor for this process. -/
def lastSeq (id : String) (w : Link μ) : ℕ :=
  (((w.agents.fence id).filter fun f => f.incarnation == w.uplink.incarnation).map
    Agents.Fence.lastSeq).getD 0

/-! ## The invariant -/

end Link

namespace Stream

def seqs (st : Stream μ) : List ℕ := st.frames.map AgentMessage.seq

/-- What holds of every session's stream, live or not: its frames are ephemeral or messages of the
log, its acknowledgements are covered by what was applied, and its writer's epoch has been handed
out. -/
structure Ok (log : List μ) (applied epoch : ℕ) (st : Stream μ) : Prop where
  frames_mem : ∀ m ∈ st.frames, m.seq ≠ 0 → (stamped log)[m.seq - 1]? = some m
  acks_le : ∀ a ∈ st.acks, a ≤ applied
  epoch_le : ∀ e, st.epoch = some e → e ≤ epoch

/-- What holds of the live session's stream: reading it skips nothing above the cursor, and the
message its writer takes next continues it. -/
structure Live (u : Uplink μ) (applied : ℕ) (st : Stream μ) : Prop where
  covers : Replay.Covers applied st.seqs
  continues : st.epoch = some u.state.epoch → st.connected = true →
    u.position ≤ Replay.reach applied st.seqs

variable {log : List μ} {applied epoch : ℕ} {st : Stream μ} {u : Uplink μ}

theorem ok_new (log : List μ) (applied epoch : ℕ) (connected : Bool) :
    Ok log applied epoch { connected := connected } where
  frames_mem := by simp
  acks_le := by simp
  epoch_le := by simp

theorem Ok.mono (h : st.Ok log applied epoch) {applied' epoch' : ℕ} (ha : applied ≤ applied')
    (he : epoch ≤ epoch') : st.Ok log applied' epoch' where
  frames_mem := h.frames_mem
  acks_le a ha' := (h.acks_le a ha').trans ha
  epoch_le e he' := (h.epoch_le e he').trans he

theorem Ok.append_log (h : st.Ok log applied epoch) (msg : μ) :
    st.Ok (log ++ [msg]) applied epoch where
  frames_mem m hm hs := by
    have hget := h.frames_mem m hm hs
    have hlt := (List.getElem?_eq_some_iff.1 hget).1
    rw [stamped_append, getElem?_append_left hlt, hget]
  acks_le := h.acks_le
  epoch_le := h.epoch_le

theorem Live.of_position (h : st.Live u applied) {v : Uplink μ}
    (he : v.state.epoch = u.state.epoch)
    (hp : v.position ≤ u.position ∨ v.position ≤ Replay.reach applied st.seqs) :
    st.Live v applied where
  covers := h.covers
  continues hep hc := by
    rcases hp with hp | hp
    · exact hp.trans (h.continues (he ▸ hep) hc)
    · exact hp

theorem Live.of_epoch_ne (h : st.Live u applied) {v : Uplink μ}
    (he : st.epoch ≠ some v.state.epoch) : st.Live v applied where
  covers := h.covers
  continues hep := absurd hep he

theorem live_new (u : Uplink μ) (applied : ℕ) (connected : Bool) :
    Live u applied { connected := connected } where
  covers := Replay.covers_nil _
  continues hep := nomatch hep

theorem seqs_append (st : Stream μ) (m : AgentMessage μ) :
    ({ st with frames := st.frames ++ [m] } : Stream μ).seqs = st.seqs ++ [m.seq] := by
  simp [seqs]

end Stream

namespace Link

/-- The joint invariant of the window, the streams and the controller's cursor. -/
structure Inv (id : String) (w : Link μ) : Prop where
  window : w.uplink.Window w.accepted
  applied_eq : w.applied = (stamped w.accepted).take w.applied.length
  retired_le : w.uplink.retired ≤ w.applied.length
  streams_ok : ∀ s, (w.streams s).Ok w.accepted w.applied.length w.uplink.state.epoch
  epoch_inj : ∀ s s' e, (w.streams s).epoch = some e → (w.streams s').epoch = some e → s = s'
  fresh : ∀ s, s ∉ w.opened → (w.streams s).epoch = none
  unregistered : w.opened = [] → w.applied = [] ∧
    ∀ f, w.agents.fence id = some f → f.incarnation ≠ w.uplink.incarnation
  registered : w.opened ≠ [] → ∃ s ∈ w.opened,
    w.agents.fence id =
      some { session := s, incarnation := w.uplink.incarnation, lastSeq := w.applied.length } ∧
    (w.streams s).Live w.uplink w.applied.length

variable {id : String} {w : Link μ}

theorem streams_setStream (w : Link μ) (session : ℕ) (st : Stream μ) (s : ℕ) :
    (w.setStream session st).streams s = if s = session then st else w.streams s :=
  update_apply _ _ _ _

theorem epoch_update {streams : ℕ → Stream μ} {s : ℕ} {st : Stream μ}
    (h : st.epoch = (streams s).epoch) (s' : ℕ) :
    (Function.update streams s st s').epoch = (streams s').epoch := by
  by_cases hs : s' = s
  · rw [hs, update_self, h]
  · rw [update_of_ne hs]

theorem inv_init (h : Init id w) : Inv id w := by
  obtain ⟨⟨maxBytes, maxMessages, incarnation, hu⟩, hfence, hstreams, hopened, haccepted,
    happlied⟩ := h
  refine ⟨?_, ?_, ?_, ?_, ?_, ?_, ?_, ?_⟩
  · rw [hu, haccepted]
    exact window_withLimits _ _ _
  · simp [happlied]
  · rw [hu]
    exact Nat.zero_le _
  · intro s
    rw [hstreams]
    exact Stream.ok_new _ _ _ _
  · simp [hstreams]
  · simp [hstreams]
  · exact fun _ => ⟨happlied, hfence⟩
  · exact fun hne => absurd hopened hne

theorem Inv.applied_le (h : Inv id w) : w.applied.length ≤ w.accepted.length := by
  have hlen := congrArg List.length h.applied_eq
  rw [length_take, length_stamped] at hlen
  omega

theorem Inv.setUplink (h : Inv id w) {v : Uplink μ} (hwin : v.Window w.accepted)
    (hret : v.retired ≤ w.applied.length) (hep : v.state.epoch = w.uplink.state.epoch)
    (hinc : v.incarnation = w.uplink.incarnation)
    (hlive : ∀ s, (w.streams s).Live w.uplink w.applied.length →
      (w.streams s).Live v w.applied.length) :
    Inv id { w with uplink := v } := { h with
  window := hwin
  retired_le := hret
  streams_ok s := (h.streams_ok s).mono le_rfl hep.ge
  unregistered ho := by
    show w.applied = [] ∧ ∀ f, w.agents.fence id = some f → f.incarnation ≠ v.incarnation
    rw [hinc]
    exact h.unregistered ho
  registered ho := by
    obtain ⟨s, hs, hf, hl⟩ := h.registered ho
    refine ⟨s, hs, ?_, hlive s hl⟩
    show w.agents.fence id = some { session := s, incarnation := v.incarnation, lastSeq := _ }
    rw [hinc, hf] }

theorem Inv.setStream (h : Inv id w) {s : ℕ} {st : Stream μ}
    (hok : st.Ok w.accepted w.applied.length w.uplink.state.epoch)
    (hep : st.epoch = (w.streams s).epoch)
    (hlive : ∀ f, w.agents.fence id = some f → f.session = s →
      (w.streams s).Live w.uplink w.applied.length → st.Live w.uplink w.applied.length) :
    Inv id (w.setStream s st) := by
  have hepoch := epoch_update hep
  refine ⟨h.window, h.applied_eq, h.retired_le, ?_, ?_, ?_, h.unregistered, ?_⟩
  · exact (forall_update_iff w.streams fun _ (st' : Stream μ) => st'.Ok _ _ _).2
      ⟨hok, fun s' _ => h.streams_ok s'⟩
  · intro s₁ s₂ e h₁ h₂
    exact h.epoch_inj s₁ s₂ e (hepoch s₁ ▸ h₁) (hepoch s₂ ▸ h₂)
  · intro s' hs'
    exact (hepoch s').trans (h.fresh s' hs')
  · intro ho
    obtain ⟨s', hs', hf, hl⟩ := h.registered ho
    refine ⟨s', hs', hf, ?_⟩
    show (Function.update w.streams s st s').Live _ _
    by_cases hs : s' = s
    · subst hs
      rw [update_self]
      exact hlive _ hf rfl hl
    · rwa [update_of_ne hs]

theorem Inv.setAgents (h : Inv id w) {agents : Agents}
    (hf : agents.fence id = w.agents.fence id) : Inv id { w with agents := agents } := { h with
  unregistered ho := by
    show w.applied = [] ∧ ∀ f, agents.fence id = some f → f.incarnation ≠ w.uplink.incarnation
    rw [hf]
    exact h.unregistered ho
  registered ho := by
    obtain ⟨s, hs, hfs, hl⟩ := h.registered ho
    exact ⟨s, hs, hf.trans hfs, hl⟩ }

theorem Inv.lastSeq_eq (h : Inv id w) : w.lastSeq id = w.applied.length := by
  unfold lastSeq
  by_cases ho : w.opened = []
  · obtain ⟨happ, hf⟩ := h.unregistered ho
    cases hfence : w.agents.fence id with
    | none => simp [happ]
    | some f => simp [happ, Option.filter, hf f hfence]
  · obtain ⟨s, -, hf, -⟩ := h.registered ho
    simp [hf, Option.filter]

/-! ## The steps -/

variable {encodedLen : AgentMessage μ → ℕ} {reg : Register} {session : ℕ} {m : AgentMessage μ}
  {rest : List (AgentMessage μ)}

section

variable (h : Inv id w)
include h

theorem Inv.push {msg : AgentMessage μ} {w' : Link μ}
    (hn : next encodedLen id w (.push msg) = some w') : Inv id w' := by
  rcases push_spec encodedLen h.window msg with ⟨e, he⟩ | ⟨v, hv, hwin, hret, hpos, hep, hinc⟩
  · simp only [next, he, some.injEq] at hn
    subst hn
    exact h
  · simp only [next, hv, some.injEq] at hn
    subst hn
    have hu : Inv id { w with accepted := w.accepted ++ [msg.msg], uplink := v } := by
      refine ⟨hwin, ?_, hret ▸ h.retired_le, ?_, h.epoch_inj, h.fresh, ?_, ?_⟩
      · rw [stamped_append, take_append_of_le_length (by simpa using h.applied_le)]
        exact h.applied_eq
      · exact fun s => ((h.streams_ok s).append_log _).mono le_rfl hep.ge
      · intro ho
        obtain ⟨ha, hf⟩ := h.unregistered ho
        exact ⟨ha, hinc ▸ hf⟩
      · intro ho
        obtain ⟨s, hs, hf, hl⟩ := h.registered ho
        refine ⟨s, hs, ?_, hl.of_position hep (.inl hpos.le)⟩
        simpa only [hinc] using hf
    exact hu

theorem Inv.close : Inv id { w with uplink := w.uplink.close } := by
  obtain ⟨hwin, hret, hpos, hep, hinc⟩ := close_spec h.window
  exact h.setUplink hwin (hret ▸ h.retired_le) hep hinc
    fun s hl => hl.of_position hep (.inl hpos.le)

/-- Acknowledgements in flight never cover more than what was applied, so retiring what they cover
retires nothing that could still be needed. -/
theorem Inv.ack {a : ℕ} (ha : a ≤ w.applied.length) :
    Inv id { w with uplink := w.uplink.ack a } := by
  obtain ⟨hwin, hret, hpos, hep, hinc⟩ := ack_spec h.window a
  rw [if_pos (ha.trans h.applied_le)] at hret
  have hret' : (w.uplink.ack a).retired ≤ w.applied.length := by
    rw [hret]
    exact max_le h.retired_le ha
  refine h.setUplink hwin hret' hep hinc fun s hl => ⟨hl.covers, fun he hc => ?_⟩
  rw [hpos]
  exact max_le (hl.continues (hep ▸ he) hc) (hret'.trans (Replay.le_reach _ _))

theorem Inv.append (hm : m.seq ≠ 0 → (stamped w.accepted)[m.seq - 1]? = some m)
    (hseq : (w.streams session).Live w.uplink w.applied.length →
      m.seq ≤ Replay.reach w.applied.length (w.streams session).seqs + 1) :
    Inv id (w.setStream session { w.streams session with
      frames := (w.streams session).frames ++ [m] }) := by
  have hok := h.streams_ok session
  refine h.setStream ⟨?_, hok.acks_le, hok.epoch_le⟩ rfl fun _ _ _ hl => ⟨?_, fun he hc => ?_⟩
  · intro m' hm' hne
    rcases mem_append.1 hm' with hm' | hm'
    · exact hok.frames_mem m' hm' hne
    · cases mem_singleton.1 hm'
      exact hm hne
  · rw [Stream.seqs_append, Replay.covers_append]
    exact ⟨hl.covers, hseq hl, trivial⟩
  · rw [Stream.seqs_append, Replay.reach_append]
    exact (hl.continues he hc).trans (Replay.le_reach _ _)

theorem Inv.sever (s kept : ℕ) :
    Inv id (w.setStream s { w.streams s with
      connected := false, frames := (w.streams s).frames.take kept }) := by
  have hok := h.streams_ok s
  refine h.setStream ⟨?_, hok.acks_le, hok.epoch_le⟩ rfl
    fun _ _ _ hl => ⟨?_, fun _ hc => nomatch hc⟩
  · exact fun m hm => hok.frames_mem m (mem_of_mem_take hm)
  · rw [Stream.seqs, map_take]
    exact hl.covers.take kept

section

variable (hid : reg.agentId = id) (hinc : reg.incarnation = w.uplink.incarnation) (session now : ℕ)
include hid hinc now

theorem Inv.fence_register :
    (w.agents.register reg session now).2.fence id =
      some { session := session, incarnation := w.uplink.incarnation
             lastSeq := w.applied.length } := by
  rw [← h.lastSeq_eq]
  subst hid
  rw [Agents.fence_register_self, hinc]
  rfl

theorem Inv.register (hnew : session ∉ w.opened) :
    Inv id { w with
      agents := (w.agents.register reg session now).2
      streams := Function.update w.streams session { connected := true }
      opened := session :: w.opened } := by
  have hs : Inv id (w.setStream session { connected := true }) :=
    h.setStream (Stream.ok_new _ _ _ _) (h.fresh session hnew).symm fun _ _ _ _ =>
      Stream.live_new _ _ _
  exact { hs with
    fresh := fun s hs' => hs.fresh s fun hmem => hs' (mem_cons_of_mem _ hmem)
    unregistered := fun ho => absurd ho (cons_ne_nil _ _)
    registered := fun _ => by
      refine ⟨session, mem_cons_self, h.fence_register hid hinc session now, ?_⟩
      show (Function.update w.streams session { connected := true } session).Live _ _
      rw [update_self]
      exact Stream.live_new _ _ _ }

end

theorem Inv.rewind (hmem : session ∈ w.opened)
    (hnone : (w.streams session).epoch = none) :
    Inv id { w.setStream session { w.streams session with epoch := some w.uplink.rewind.1 } with
      uplink := w.uplink.rewind.2 } := by
  obtain ⟨hwin, hret, hpos, hep, hfst, hinc⟩ := rewind_spec h.window
  have hlt : ∀ s e, (w.streams s).epoch = some e → e < w.uplink.rewind.1 := by
    intro s e he
    rw [hfst]
    exact Nat.lt_succ_of_le ((h.streams_ok s).epoch_le e he)
  have hsession := h.streams_ok session
  refine ⟨hwin, h.applied_eq, hret ▸ h.retired_le, ?_, ?_, ?_, ?_, ?_⟩
  · refine (forall_update_iff w.streams fun _ (st : Stream μ) => st.Ok _ _ _).2
      ⟨⟨hsession.frames_mem, hsession.acks_le, ?_⟩,
        fun s _ => (h.streams_ok s).mono le_rfl (hep ▸ Nat.le_succ _)⟩
    intro e he
    rw [← some.inj he, hfst, hep]
  · intro s₁ s₂ e h₁ h₂
    simp only [streams_setStream] at h₁ h₂
    split_ifs at h₁ h₂ with hs₁ hs₂ hs₂
    · rw [hs₁, hs₂]
    · exact absurd (some.inj h₁) (hlt s₂ e h₂).ne'
    · exact absurd (some.inj h₂) (hlt s₁ e h₁).ne'
    · exact h.epoch_inj s₁ s₂ e h₁ h₂
  · intro s hs
    have hne : s ≠ session := fun heq => hs (heq ▸ hmem)
    simpa only [streams_setStream, if_neg hne] using h.fresh s hs
  · intro ho
    exact absurd hmem (by rw [show w.opened = [] from ho]; exact not_mem_nil)
  · intro ho
    obtain ⟨s, hs, hf, hl⟩ := h.registered ho
    refine ⟨s, hs, ?_, ?_⟩
    · show w.agents.fence id = some { session := s, incarnation := w.uplink.rewind.2.incarnation
                                      lastSeq := w.applied.length }
      rw [hinc, hf]
    · show ((w.setStream session _).streams s).Live w.uplink.rewind.2 w.applied.length
      rw [streams_setStream]
      by_cases heq : s = session
      · subst heq
        rw [if_pos rfl]
        refine ⟨hl.covers, fun _ _ => ?_⟩
        rw [hpos]
        exact h.retired_le.trans (Replay.le_reach _ _)
      · rw [if_neg heq]
        refine hl.of_epoch_ne fun he => ?_
        exact absurd (hfst.trans hep.symm) (hlt s _ he).ne'

/-- A message the current writer takes continues the frames of its own session; no other session's
writer holds the current epoch. -/
theorem Inv.write {epoch : ℕ} (he : (w.streams session).epoch = some epoch)
    {u : Uplink μ} (hn : w.uplink.nextUnsent epoch = (.message m, u)) :
    Inv id { w.setStream session { w.streams session with
      frames := if (w.streams session).connected then (w.streams session).frames ++ [m]
        else (w.streams session).frames } with uplink := u } := by
  obtain ⟨rfl, hget, hwin, hret, hpos, hep, hinc⟩ := nextUnsent_spec h.window hn
  have hseq : m.seq = w.uplink.position + 1 := by
    rw [getElem?_stamped] at hget
    obtain ⟨_, -, rfl⟩ := map_eq_some_iff.1 hget
    rfl
  have hok := h.streams_ok session
  have hs : Inv id (w.setStream session { w.streams session with
      frames := if (w.streams session).connected then (w.streams session).frames ++ [m]
        else (w.streams session).frames }) := by
    cases hc : (w.streams session).connected with
    | false =>
      exact h.setStream ⟨hok.frames_mem, hok.acks_le, hok.epoch_le⟩ rfl fun _ _ _ hl =>
        ⟨hl.covers, fun _ hcon => nomatch hc.symm.trans hcon⟩
    | true =>
      refine h.append (fun _ => ?_) fun hl => ?_
      · rw [hseq]
        exact hget
      · rw [hseq]
        exact Nat.succ_le_succ (hl.continues he hc)
  refine hs.setUplink hwin (hret ▸ h.retired_le) hep hinc fun s hl => ?_
  by_cases heq : s = session
  · subst heq
    refine ⟨hl.covers, fun _ hcon => ?_⟩
    simp only [streams_setStream, if_true] at hcon ⊢
    have hseqs : ({ w.streams s with frames := if (w.streams s).connected then
        (w.streams s).frames ++ [m] else (w.streams s).frames } : Stream μ).seqs =
        (w.streams s).seqs ++ [m.seq] := by
      rw [if_pos hcon]
      exact Stream.seqs_append _ _
    rw [hseqs, Replay.reach_append, hpos, ← hseq]
    exact le_max_right _ _
  · refine hl.of_epoch_ne fun hcur => heq ?_
    simp only [streams_setStream, if_neg heq] at hcur
    exact h.epoch_inj s session _ hcur (hep ▸ he)

/-- The front frame of the live session is the next message, or one the controller has seen. -/
theorem Inv.seq_le {f : Agents.Fence} (hf : w.agents.fence id = some f)
    (ho : f.session ∈ w.opened) (hfr : (w.streams f.session).frames = m :: rest) :
    f.lastSeq = w.applied.length ∧ m.seq ≤ f.lastSeq + 1 := by
  obtain ⟨s, -, hs, hl⟩ := h.registered (ne_nil_of_mem ho)
  cases hf.symm.trans hs
  refine ⟨rfl, ?_⟩
  have hc := hl.covers
  rw [Stream.seqs, hfr] at hc
  exact hc.1

theorem Inv.take_succ (hseq : m.seq = w.applied.length + 1)
    (hget : (stamped w.accepted)[m.seq - 1]? = some m) :
    w.applied ++ [m] = (stamped w.accepted).take (w.applied ++ [m]).length := by
  rw [hseq, Nat.add_sub_cancel] at hget
  rw [length_append, length_singleton, take_add_one, ← h.applied_eq, hget]
  rfl

theorem Inv.receive_live {f : Agents.Fence} (hf : w.agents.fence id = some f)
    (ho : f.session ∈ w.opened) (hfr : (w.streams f.session).frames = m :: rest) (now : ℕ)
    (acked : Bool) : Inv id (w.receiveFrame id f.session now acked m rest) := by
  obtain ⟨hlast, hle⟩ := h.seq_le hf ho hfr
  obtain ⟨s, hs, hfs, hl⟩ := h.registered (ne_nil_of_mem ho)
  cases hf.symm.trans hfs
  have hadm := Agents.admitMessage_live hf m.seq now
  have hok := h.streams_ok s
  dsimp only at hadm hok hl hs hfr hle
  generalize hr : w.agents.admitMessage id s m.seq now = r at hadm
  have happ : (w.receiveFrame id s now acked m rest).applied =
      if m.seq = w.applied.length + 1 then w.applied ++ [m] else w.applied := by
    simp only [receiveFrame, hr, hadm.verdict_eq]
    congr 1
    simp only [ite_eq_left_iff, reduceCtorEq, imp_false, not_not, ne_eq, eq_iff_iff]
    omega
  have hlen : (w.receiveFrame id s now acked m rest).applied.length =
      max w.applied.length m.seq := by
    rw [happ]
    split_ifs with hnext
    · rw [length_append, length_singleton, ← hnext]
      omega
    · omega
  have hmono : w.applied.length ≤ (w.receiveFrame id s now acked m rest).applied.length := by
    rw [hlen]
    exact le_max_left _ _
  have hepoch : ∀ s', ((w.receiveFrame id s now acked m rest).streams s').epoch =
      (w.streams s').epoch := epoch_update rfl
  refine ⟨h.window, ?_, h.retired_le.trans hmono, ?_, ?_, ?_, ?_, ?_⟩
  · rw [happ]
    split_ifs with hnext
    · exact h.take_succ hnext (hok.frames_mem m (hfr ▸ mem_cons_self) (by omega))
    · exact h.applied_eq
  · refine (forall_update_iff w.streams fun _ (st : Stream μ) => st.Ok _ _ _).2
      ⟨⟨?_, ?_, hok.epoch_le⟩, fun s' _ => (h.streams_ok s').mono hmono le_rfl⟩
    · exact fun m' hm' => hok.frames_mem m' (hfr ▸ mem_cons_of_mem _ hm')
    · intro a ha
      rw [hr, mem_append] at ha
      rcases ha with ha | ha
      · exact (hok.acks_le a ha).trans hmono
      · split_ifs at ha with hacked
        · rw [hadm.ack_eq a (mem_toList.1 ha), hlen]
        · cases ha
  · intro s₁ s₂ e h₁ h₂
    exact h.epoch_inj s₁ s₂ e (hepoch s₁ ▸ h₁) (hepoch s₂ ▸ h₂)
  · exact fun s' hs' => (hepoch s').trans (h.fresh s' hs')
  · exact fun hnil => absurd hnil (ne_nil_of_mem ho)
  · intro _
    refine ⟨s, hs, ?_, ?_⟩
    · rw [hlen]
      simpa only [receiveFrame, hr] using hadm.fence_eq
    · have hseqs : (w.streams s).seqs = m.seq :: rest.map AgentMessage.seq := by
        rw [Stream.seqs, hfr, map_cons]
      obtain ⟨hcovers, hcontinues⟩ := hl
      rw [hseqs] at hcovers hcontinues
      rw [hlen]
      simp only [receiveFrame, update_self]
      exact ⟨hcovers.2, hcontinues⟩

theorem Inv.receive_stale
    (hs : ∀ f, w.agents.fence id = some f → f.session ≠ session)
    (hfr : (w.streams session).frames = m :: rest) (now : ℕ) (acked : Bool) :
    Inv id (w.receiveFrame id session now acked m rest) := by
  have hok := h.streams_ok session
  have hset : w.receiveFrame id session now acked m rest =
      w.setStream session { w.streams session with frames := rest } := by
    simp [receiveFrame, Agents.admitMessage_stale hs, Link.setStream]
  rw [hset]
  exact h.setStream
    ⟨fun m' hm' => hok.frames_mem m' (hfr ▸ mem_cons_of_mem _ hm'), hok.acks_le, hok.epoch_le⟩
    rfl fun f hf hsession => absurd hsession (hs f hf)

theorem Inv.receive (ho : session ∈ w.opened)
    (hfr : (w.streams session).frames = m :: rest) (now : ℕ) (acked : Bool) :
    Inv id (w.receiveFrame id session now acked m rest) := by
  by_cases hs : ∀ f, w.agents.fence id = some f → f.session ≠ session
  · exact h.receive_stale hs hfr now acked
  · push Not at hs
    obtain ⟨f, hf, rfl⟩ := hs
    exact h.receive_live hf ho hfr now acked

theorem Inv.foreign (ho : w.opened = []) {agents : Agents}
    (hf : ∀ f, agents.fence id = some f → f.incarnation ≠ w.uplink.incarnation) :
    Inv id { w with agents := agents } := { h with
  unregistered _ := ⟨(h.unregistered ho).1, hf⟩
  registered hne := absurd ho hne }

theorem Inv.foreignRegister (session now : ℕ)
    (hg : reg.agentId ≠ id ∨ w.opened = [] ∧ reg.incarnation ≠ w.uplink.incarnation) :
    Inv id { w with agents := (w.agents.register reg session now).2 } := by
  by_cases hid : id = reg.agentId
  · obtain ⟨ho, hinc⟩ := hg.resolve_left fun hne => hne hid.symm
    refine h.foreign ho fun f hf => ?_
    rw [hid, Agents.fence_register_self] at hf
    rw [← some.inj hf]
    exact hinc
  · exact h.setAgents (Agents.fence_register_of_ne hid _ _ _)

theorem Inv.foreignReceive {agentId : String} (seq now : ℕ)
    (hg : agentId ≠ id ∨ session ∉ w.opened) :
    Inv id { w with agents := (w.agents.admitMessage agentId session seq now).2 } := by
  by_cases hid : id = agentId
  · subst hid
    have hmem := hg.resolve_left fun hne => hne rfl
    by_cases ho : w.opened = []
    · refine h.foreign ho fun f hf => ?_
      cases hfence : w.agents.fence id with
      | none =>
        rw [Agents.admitMessage_stale (by simp [hfence]), hfence] at hf
        cases hf
      | some g =>
        obtain ⟨n, hn⟩ := Agents.fence_admitMessage hfence session seq now
        rw [← some.inj (hn.symm.trans hf)]
        exact (h.unregistered ho).2 g hfence
    · obtain ⟨s, hs, hf, -⟩ := h.registered ho
      rw [Agents.admitMessage_stale]
      · exact h
      · intro f hf' heq
        cases hf.symm.trans hf'
        exact hmem (heq ▸ hs)
  · exact h.setAgents (Agents.fence_admitMessage_of_ne hid)

theorem Inv.next {a : Action μ} {w' : Link μ} (hn : w.next encodedLen id a = some w') :
    Inv id w' := by
  cases a with
  | push msg => exact h.push hn
  | close => exact some.inj hn ▸ h.close
  | register reg session now =>
    obtain ⟨⟨hid, hinc, hnew⟩, hw⟩ := ite_none_right_eq_some.1 hn
    exact some.inj hw ▸ h.register hid hinc session now hnew
  | rewind session =>
    obtain ⟨⟨hmem, hnone⟩, hw⟩ := ite_none_right_eq_some.1 hn
    exact some.inj hw ▸ h.rewind hmem hnone
  | write session =>
    obtain ⟨epoch, he, hw⟩ := bind_eq_some_iff.1 hn
    cases hp : w.uplink.nextUnsent epoch with
    | mk polled u =>
      rw [hp] at hw
      cases polled with
      | message m => exact some.inj hw ▸ h.write he hp
      | wait | done =>
        have hu : u = w.uplink := by
          have hidle : (w.uplink.nextUnsent epoch).2 = w.uplink := nextUnsent_idle (by simp [hp])
          rwa [hp] at hidle
        exact some.inj hw ▸ hu ▸ h
  | heartbeat session msg =>
    obtain ⟨-, hw⟩ := ite_none_right_eq_some.1 hn
    exact some.inj hw ▸ h.append (fun hne => absurd rfl hne) fun _ => Nat.zero_le _
  | sever session kept => exact some.inj hn ▸ h.sever session kept
  | receive session now acked =>
    simp only [Link.next] at hn
    cases hfr : (w.streams session).frames with
    | nil => simp [hfr] at hn
    | cons m rest =>
      rw [hfr] at hn
      obtain ⟨ho, hw⟩ := ite_none_right_eq_some.1 hn
      exact some.inj hw ▸ h.receive ho hfr now acked
  | ack session =>
    simp only [Link.next] at hn
    cases hacks : (w.streams session).acks with
    | nil => simp [hacks] at hn
    | cons a rest =>
      rw [hacks] at hn
      have hok := h.streams_ok session
      have hs : Inv id (w.setStream session { w.streams session with acks := rest }) :=
        h.setStream ⟨hok.frames_mem, fun a' ha' => hok.acks_le a' (hacks ▸ .tail _ ha'),
          hok.epoch_le⟩ rfl fun _ _ _ hl => ⟨hl.covers, hl.continues⟩
      exact some.inj hn ▸ hs.ack (hok.acks_le a (hacks ▸ mem_cons_self))
  | disconnect agentId session =>
    exact some.inj hn ▸ h.setAgents (Agents.fence_markDisconnected _ _ _ _)
  | foreignRegister reg session now =>
    obtain ⟨hg, hw⟩ := ite_none_right_eq_some.1 hn
    exact some.inj hw ▸ h.foreignRegister session now hg
  | foreignReceive agentId session seq now =>
    obtain ⟨hg, hw⟩ := ite_none_right_eq_some.1 hn
    exact some.inj hw ▸ h.foreignReceive seq now hg

end

theorem inv_of_reachable (h : (machine encodedLen id).Reachable w) : Inv id w :=
  Machine.Reachable.invariant (I := Inv id) (fun _ hinit => inv_init hinit)
    (fun _ _ _ _ hinv hn => hinv.next hn) h

/-! ## Exactly once -/

/-- The warning about a gap in the agent's uplink sequence is never reached. -/
theorem Inv.gap_eq_false (h : Inv id w) (ho : session ∈ w.opened)
    (hfr : (w.streams session).frames = m :: rest) (now : ℕ) :
    (w.agents.admitMessage id session m.seq now).1.gap = false := by
  by_cases hs : ∀ f, w.agents.fence id = some f → f.session ≠ session
  · rw [Agents.admitMessage_stale hs]
  · push Not at hs
    obtain ⟨f, hf, rfl⟩ := hs
    have hle := (h.seq_le hf ho hfr).2
    rw [(Agents.admitMessage_live hf m.seq now).gap_eq, decide_eq_false_iff_not]
    omega

theorem Inv.mem_applied (h : Inv id w) (hm : m ∈ stamped w.accepted)
    (hp : m ∉ w.uplink.state.pending.map Entry.msg) : m ∈ w.applied := by
  rw [h.window.pending_eq] at hp
  rw [← take_append_drop w.uplink.retired (stamped w.accepted), mem_append] at hm
  rw [h.applied_eq]
  exact (take_prefix_take_left h.retired_le).subset (hm.resolve_right hp)

/-- **Exactly-once uplink.**  In every reachable state the sequenced messages the controller let
through are the first `lastSeq` ones this process accepted, in order and each once; no frame at the
front of a session opens a gap; and what has left the window has been let through. -/
theorem applied_exactly_once (encodedLen : AgentMessage μ → ℕ) (id : String) (w : Link μ)
    (h : (machine encodedLen id).Reachable w) :
    w.applied.map AgentMessage.seq = List.range' 1 (w.lastSeq id) ∧
      w.applied = (stamped w.accepted).take (w.lastSeq id) ∧
      (∀ session ∈ w.opened, ∀ m rest now, (w.streams session).frames = m :: rest →
        (w.agents.admitMessage id session m.seq now).1.gap = false) ∧
      ∀ m ∈ stamped w.accepted, m ∉ w.uplink.state.pending.map Entry.msg → m ∈ w.applied := by
  have hinv := inv_of_reachable h
  have happ : w.applied = (stamped w.accepted).take (w.lastSeq id) := by
    rw [hinv.lastSeq_eq]
    exact hinv.applied_eq
  refine ⟨?_, happ, ?_, ?_⟩
  · have hle := hinv.applied_le
    rw [← hinv.lastSeq_eq] at hle
    rw [happ, map_take, map_seq_stamped, take_range'_of_length_ge hle]
  · exact fun session ho m rest now hfr => hinv.gap_eq_false ho hfr now
  · exact fun m hm hp => hinv.mem_applied hm hp

def start : Link ℕ where
  uplink := withLimits 100 10 "i"
  agents := ∅
  streams _ := {}
  opened := []
  accepted := []
  applied := []

def registration : Register where
  agentId := "a"
  agentName := "a"
  protocolVersion := 4
  labels := ∅
  resumeRunId := ""
  incarnation := "i"

/-- Two messages; the first session loses the second one and its acknowledgement, the second session
replays both. -/
def reconnect : List (Action ℕ) :=
  [.push ⟨0, 7⟩, .push ⟨0, 8⟩, .register registration 1 0, .rewind 1, .write 1, .write 1,
    .receive 1 0 true, .sever 1 0, .register registration 2 0, .rewind 2, .write 2, .write 2,
    .receive 2 0 false, .receive 2 0 true, .ack 2]

theorem applied_exactly_once_reconnect :
    ∃ w, (machine (fun _ => 1) "a").run start reconnect = some w ∧
      w.applied.map AgentMessage.seq = List.range' 1 2 ∧ w.uplink.state.pending = [] ∧
      ∀ m ∈ stamped w.accepted, m ∉ w.uplink.state.pending.map Entry.msg → m ∈ w.applied := by
  have hrun : ((machine (fun _ => 1) "a").run start reconnect).map
      (fun w => (w.lastSeq "a", w.uplink.state.pending)) = some (2, []) := by decide
  obtain ⟨w, hw, heq⟩ := map_eq_some_iff.1 hrun
  obtain ⟨hlast, hpending⟩ := Prod.mk.inj heq
  have hinit : Init "a" start := ⟨⟨_, _, _, rfl⟩, nofun, rfl, rfl, rfl, rfl⟩
  obtain ⟨hseqs, -, -, hleft⟩ :=
    applied_exactly_once _ "a" w ((Machine.Reachable.init hinit).run hw)
  exact ⟨w, hw, hlast ▸ hseqs, hpending, hleft⟩

end Link

end Loadr
