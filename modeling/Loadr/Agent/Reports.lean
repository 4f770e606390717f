import Loadr.Agent.Process

/-!
# What agents report

Deltas come from a running engine, so from a process that has been told to start; and whatever run a
process works on has been assigned to it.
-/

namespace Loadr

namespace Agent

namespace Process

variable {β : Type} {p p' q : Process β} {act : Act β} {m m' : AgentMsg β} {n : ℕ} {room : Bool}

theorem mem_sent_enqueue (h : m ∈ (p.enqueue m' room).sent) : m ∈ p.sent ∨ m = m' := by
  unfold enqueue at h
  split at h
  · exact (List.mem_cons.1 h).symm
  · exact .inl h

theorem mem_sent_next (hstep : p.next act = some p') (h : m ∈ p'.sent) :
    m ∈ p.sent ∨ Says p act m := by
  have hsent {q : Process β} (hq : Change (p.hear act) act q) : q.sent = p.sent :=
    hq.frame.2.1.trans (by cases act <;> rfl)
  obtain ⟨q, hq, rfl | ⟨m', room, hm', rfl⟩⟩ := stepped_of_next hstep
  · exact .inl (hsent hq ▸ h)
  · rcases mem_sent_enqueue h with h | rfl
    · exact .inl (hsent hq ▸ h)
    · exact .inr hm'

theorem sent_next (h : p.next act = some p') (hm : m ∈ p.sent) : m ∈ p'.sent := by
  have hsent {q : Process β} (hq : Change (p.hear act) act q) : m ∈ q.sent := by
    rw [hq.frame.2.1]
    cases act <;> exact hm
  obtain ⟨q, hq, rfl | ⟨m', room, -, rfl⟩⟩ := stepped_of_next h
  · exact hsent hq
  · unfold enqueue
    split
    · exact List.mem_cons_of_mem _ (hsent hq)
    · exact hsent hq

/-- Deltas are about runs the process has been told to start. -/
def MetricsHeard (p : Process β) : Prop :=
  ∀ R json, .metrics R json ∈ p.sent → ∃ t, .start R t ∈ p.heard

theorem MetricsHeard.next (h : MetricsHeard p) (hs : StartHeard p) (hstep : p.next act = some p') :
    MetricsHeard p' := by
  intro R json hm
  have hheard : ∀ m ∈ p.heard, m ∈ p'.heard := by
    intro m hm
    rw [heard_next hstep]
    cases act with
    | receive => exact List.mem_cons_of_mem _ hm
    | prep | run | heartbeat | shutdown => exact hm
  have hold : ∃ t, .start R t ∈ p.heard := by
    rcases mem_sent_next hstep hm with hm | ⟨n, room, run, -, hrun, hstage, rfl⟩
    · exact h R json hm
    · exact hs.task n run hrun (by rw [hstage]; rfl)
  exact hold.imp fun t => hheard _

theorem Lived.metricsHeard (h : Lived p) : MetricsHeard p := by
  induction h with
  | launch => exact fun _ _ => nofun
  | next h hstep ih => exact ih.next h.startHeard hstep

/-! ## Runs a process has been assigned -/

/-- The process has received an assignment of the run. -/
def Assigned (p : Process β) (R : String) : Prop := ∃ a, .assignment a ∈ p.heard ∧ a.runId = R

@[simp]
theorem current_enqueue (p : Process β) (m : AgentMsg β) (room : Bool) :
    (p.enqueue m room).current = p.current := by
  unfold enqueue
  split <;> rfl

@[simp]
theorem current_setCurrent (p : Process β) (phase : Option RunPhase) :
    (p.setCurrent phase).current = phase := by
  obtain ⟨startRx, h⟩ := p.setCurrent_eq phase
  rw [h]

@[simp]
theorem preps_setCurrent (p : Process β) (phase : Option RunPhase) :
    (p.setCurrent phase).preps = p.preps := by
  obtain ⟨startRx, h⟩ := p.setCurrent_eq phase
  rw [h]

/-- The process works on the run already, is assigned it, or has it prepared. -/
def Occupies (p : Process β) (act : Act β) (R : String) : Prop :=
  (∃ old, p.current = some old ∧ old.runId = R) ∨
  (∃ a room, act = .receive (.assignment a) room ∧ a.runId = R) ∨
  ∃ n result room prep, act = .prep n result room ∧ p.preps n = some prep ∧
    prep.assignment.runId = R

theorem Change.current {phase : RunPhase} (h : Change p act q) (hc : q.current = some phase) :
    p.Occupies act phase.runId := by
  cases h with
  | claim a room =>
    cases (current_setCurrent p _).symm.trans hc
    exact .inr (.inl ⟨a, room, rfl, rfl⟩)
  | start _ _ hold | latch _ _ hold =>
    cases hc
    exact .inl ⟨_, hold, rfl⟩
  | arm result room hp =>
    cases hc
    exact .inr (.inr ⟨_, result, room, _, rfl, hp, rfl⟩)
  | cancel | leave => cases hc
  | kill | vacate => cases (current_setCurrent _ none).symm.trans hc
  | task =>
    rename_i status _ _ _ _
    cases status <;> exact .inl ⟨phase, hc, rfl⟩
  | _ => exact .inl ⟨phase, hc, rfl⟩

theorem current_next {phase : RunPhase} (h : p.next act = some p')
    (hc : p'.current = some phase) : p.Occupies act phase.runId := by
  obtain ⟨q, sent, hq, rfl⟩ := exists_change h
  cases act <;> exact hq.current hc

/-- The process has the assignment in preparation, or is given it. -/
def Prepares (p : Process β) (act : Act β) (n : ℕ) (a : Assignment) : Prop :=
  (∃ prep, p.preps n = some prep ∧ prep.assignment = a) ∨ ∃ room, act = .receive (.assignment a) room

theorem Change.preps {prep' : Prep} (h : Change p act q) (hp : q.preps n = some prep') :
    p.Prepares act n prep'.assignment := by
  have hset {m : ℕ} {prep : Prep} {next : Option Prep} (hm : p.preps m = some prep)
      (hnext : ∀ x, next = some x → x.assignment = prep.assignment)
      (hu : Function.update p.preps m next n = some prep') :
      ∃ prep, p.preps n = some prep ∧ prep.assignment = prep'.assignment := by
    rw [Function.update_apply] at hu
    split at hu
    · rename_i hn
      exact ⟨prep, hn ▸ hm, (hnext prep' hu).symm⟩
    · exact ⟨prep', hu, rfl⟩
  cases h with
  | claim a room =>
    have hp : Function.update p.preps p.claims (some ⟨a, .building⟩) n = some prep' := hp
    rw [Function.update_apply] at hp
    split at hp
    · cases hp
      exact .inr ⟨room, rfl⟩
    · exact .inl ⟨prep', hp, rfl⟩
  | build _ _ hold | arm _ _ hold =>
    refine .inl (hset hold ?_ hp)
    rintro _ ⟨⟩
    rfl
  | close _ _ hold hnext => exact .inl (hset hold (fun x hx => (hnext x hx).1) hp)
  | leave _ _ hold _ hnext => exact .inl (hset hold (fun x hx => (hnext x hx).1) hp)
  | kill | vacate =>
    simp only [preps_setCurrent] at hp
    exact .inl ⟨prep', hp, rfl⟩
  | task =>
    rename_i status _ _ _ _
    cases status <;> exact .inl ⟨prep', hp, rfl⟩
  | _ => exact .inl ⟨prep', hp, rfl⟩

theorem preps_next {prep' : Prep} (h : p.next act = some p') (hp : p'.preps n = some prep') :
    p.Prepares act n prep'.assignment := by
  obtain ⟨q, sent, hq, rfl⟩ := exists_change h
  cases act <;> exact hq.preps hp

/-- Whatever run the process works on or says it is ready for, it has been assigned. -/
structure AssignmentHeard (p : Process β) : Prop where
  slot : ∀ phase, p.current = some phase → p.Assigned phase.runId
  prep : ∀ n prep, p.preps n = some prep → p.Assigned prep.assignment.runId
  said : ∀ R i, .assignmentReady R i ∈ p.sent → p.Assigned R

theorem Assigned.next {R : String} (h : p.Assigned R) (hstep : p.next act = some p') :
    p'.Assigned R := by
  obtain ⟨a, ha, hR⟩ := h
  refine ⟨a, ?_, hR⟩
  rw [heard_next hstep]
  cases act with
  | receive => exact List.mem_cons_of_mem _ ha
  | prep | run | heartbeat | shutdown => exact ha

theorem assigned_receive {a : Assignment}
    (hstep : p.next (.receive (.assignment a) room) = some p') : p'.Assigned a.runId := by
  refine ⟨a, ?_, rfl⟩
  rw [heard_next hstep]
  exact List.mem_cons_self

theorem AssignmentHeard.next (h : AssignmentHeard p) (hstep : p.next act = some p') :
    AssignmentHeard p' where
  slot phase hc := by
    rcases current_next hstep hc with ⟨old, ho, hR⟩ | ⟨a, room, rfl, hR⟩ |
      ⟨n, result, room, prep, -, hprep, hR⟩
    · exact hR ▸ (h.slot old ho).next hstep
    · exact hR ▸ assigned_receive hstep
    · exact hR ▸ (h.prep n prep hprep).next hstep
  prep n prep' hp := by
    rcases preps_next hstep hp with ⟨prep, hprep, hR⟩ | ⟨room, rfl⟩
    · exact hR ▸ (h.prep n prep hprep).next hstep
    · exact assigned_receive hstep
  said R i hm := by
    rcases mem_sent_next hstep hm with hm | ⟨n, result, room, prep, -, hprep, -, rfl, -⟩
    · exact (h.said R i hm).next hstep
    · exact (h.prep n prep hprep).next hstep

theorem Lived.assignmentHeard (h : Lived p) : AssignmentHeard p := by
  induction h with
  | launch => exact ⟨fun _ => nofun, fun _ _ => nofun, fun _ _ => nofun⟩
  | next _ hstep ih => exact ih.next hstep

theorem AssignmentHeard.register (h : AssignmentHeard p) (hR : p.register.resumeRunId ≠ "") :
    p.Assigned p.register.resumeRunId := by
  simp only [Process.register] at hR ⊢
  cases hc : p.current with
  | none =>
    rw [hc] at hR
    cases hR rfl
  | some phase => exact h.slot phase hc

end Process

end Agent

end Loadr
