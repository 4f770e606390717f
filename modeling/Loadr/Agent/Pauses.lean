import Loadr.Agent.Reports

/-!
# Pauses on an agent

What a process last applied to the engine of its run, and what it says about it: a process is paused
and resumed by commands only, an engine starts unpaused, and a pause command is acknowledged as
applied exactly by the step that applies it.
-/

namespace Loadr

open Function Option

def ControlAction.pausing : ControlAction → Option Bool
  | .pause => some true
  | .resume => some false
  | _ => none

variable {b : Bool} {c : Control}

theorem ControlAction.not_isStop {a : ControlAction} (h : a.pausing = some b) :
    a.isStop = false := by
  cases a <;> first | rfl | cases h

theorem Engine.drive_pausing {e : Engine} (h : c.action.pausing = some b) :
    (e.drive c).1.paused = b ∧ (e.drive c).2 = .ok () := by
  unfold Engine.drive
  cases hc : c.action with
  | pause | resume =>
    rw [hc] at h
    exact ⟨some.inj h, rfl⟩
  | stop | kill | scale | other =>
    rw [hc] at h
    cases h

theorem Engine.drive_paused (e : Engine) (c : Control) :
    (e.drive c).1.paused = e.paused ∨ c.action.pausing = some (e.drive c).1.paused := by
  unfold Engine.drive
  cases c.action with
  | pause | resume => exact .inr rfl
  | stop | kill | scale | other => exact .inl rfl

namespace Agent

namespace Process

variable {β : Type} {p p' : Process β} {act : Act β} {m : AgentMsg β} {room : Bool} {R : String}

/-- The pause state of the run, if the process has it armed or running. -/
def applied (p : Process β) (R : String) : Option Bool :=
  match p.current with
  | some (.armed R' n _) => if R' = R then (p.engines n).map (·.paused) else none
  | _ => none

theorem applied_congr (hc : p'.current = p.current)
    (he : ∀ n, (p'.engines n).map (·.paused) = (p.engines n).map (·.paused)) :
    p'.applied R = p.applied R := by
  unfold applied
  rw [hc]
  split
  · rw [he]
  · rfl

theorem applied_of_none (h : p.current = none) : p.applied R = none := by
  rw [applied, h]

theorem applied_of_preparing {R' : String} {n : ℕ} {t : Option ℤ}
    (h : p.current = some (.preparing R' n t)) : p.applied R = none := by
  rw [applied, h]

theorem applied_moveRun (p : Process β) (n : ℕ) (status : Option RunStatus) (run : RunTask) :
    (p.moveRun n status run).applied R = p.applied R := by
  cases status with
  | none => rfl
  | some status =>
    refine applied_congr rfl fun m => ?_
    show (Function.update p.engines n _ m).map _ = _
    rw [update_apply]
    split
    · rename_i hm
      subst hm
      cases p.engines m <;> rfl
    · rfl

variable {v : Bool} {ack : ControlAck}

/-- How the run comes to have a pause state: it had it, a command sets it, or its engine is new. -/
def Applies (p : Process β) (act : Act β) (R : String) (v : Bool) : Prop :=
  p.applied R = some v ∨
    (p.applied R ≠ none ∧ ∃ c room, act = .receive (.control c) room ∧ c.runId = R ∧
      c.action.pausing = some v) ∨
    ∃ n result room prep scalable, act = .prep n result room ∧ p.preps n = some prep ∧
      prep.stage = .built scalable ∧ prep.assignment.runId = R ∧ v = false

theorem Change.applied {q : Process β} (h : Change p act q) (hv : q.applied R = some v) :
    p.Applies act R v := by
  have hnone (hc : q.current = none) : p.applied R = some v :=
    nomatch (applied_of_none hc).symm.trans hv
  cases h with
  | claim => cases (applied_of_preparing (current_setCurrent p _)).symm.trans hv
  | latch => cases (applied_of_preparing rfl).symm.trans hv
  | start t room hc => exact .inl (by simpa only [Process.applied, hc] using hv)
  | cancel | leave => exact .inl (hnone rfl)
  | kill | vacate => exact .inl (hnone (current_setCurrent _ none))
  | drive room hc he =>
    rename_i c n tx e
    simp only [Applies, Process.applied, hc, update_self] at hv ⊢
    split at hv
    · rename_i hR
      have hv : (e.drive c).1.paused = v := some.inj hv
      rw [if_pos hR, he]
      rcases e.drive_paused c with hkeep | hset
      · exact .inl (congrArg some (hkeep.symm.trans hv))
      · exact .inr (.inl ⟨some_ne_none _, c, room, rfl, hR, hv ▸ hset⟩)
    · cases hv
  | arm result room hp =>
    simp only [Process.applied, update_self] at hv
    split at hv
    · exact .inr (.inr ⟨_, result, room, _, _, rfl, hp, rfl, ‹_›, (some.inj hv).symm⟩)
    · cases hv
  | task => exact .inl ((applied_moveRun ..).symm.trans hv)
  | _ => exact .inl hv

theorem applied_next (h : p.next act = some p') (hv : p'.applied R = some v) :
    p.Applies act R v := by
  obtain ⟨q, sent, hq, rfl⟩ := exists_change h
  cases act <;> exact hq.applied hv

/-! ## Acknowledgements -/

@[simp]
theorem engines_enqueue (p : Process β) (m : AgentMsg β) (room : Bool) :
    (p.enqueue m room).engines = p.engines := by
  unfold enqueue
  split <;> rfl

theorem controlAck_eq {result : Except String Unit}
    (h : (.controlAck ack : AgentMsg β) = controlAck c result) :
    ack.runId = c.runId ∧ ack.commandId = c.commandId ∧ ack.action = c.action ∧
      (ack.applied = true → result = .ok ()) := by
  cases h
  refine ⟨rfl, rfl, rfl, fun happlied => ?_⟩
  cases result with
  | ok => rfl
  | error => cases happlied

theorem acked_handleControl (h : .controlAck ack ∈ (p.handleControl c room).sent)
    (happlied : ack.applied = true) (hb : c.action.pausing = some b) :
    .controlAck ack ∈ p.sent ∨ (p.handleControl c room).applied c.runId = some b := by
  have hstop := ControlAction.not_isStop hb
  have hrefused : ∀ {detail},
      .controlAck ack ∈ (p.enqueue (controlAck c (.error detail)) room).sent →
      .controlAck ack ∈ p.sent := by
    intro detail h
    rcases mem_sent_enqueue h with h | h
    · exact h
    · cases (controlAck_eq h).2.2.2 happlied
  unfold handleControl at h ⊢
  dsimp only at h ⊢
  split at h
  · simp only [hstop, Bool.false_eq_true, if_false] at h
    split at h
    · exact .inl (hrefused h)
    · exact .inl (hrefused h)
  · rename_i R n tx hc
    simp only [hstop, Bool.false_eq_true, false_and, if_false] at h ⊢
    split at h
    · rename_i hR
      split at h
      · exact .inl h
      · rename_i e he
        refine .inr ?_
        rw [if_pos hR]
        simp [applied, hc, hR, (e.drive_pausing hb).1]
    · exact .inl (hrefused h)
  · exact .inl (hrefused h)

theorem acked_next (h : p.next act = some p') (hack : .controlAck ack ∈ p'.sent) :
    .controlAck ack ∈ p.sent ∨
      ∃ c room, act = .receive (.control c) room ∧ ack.runId = c.runId ∧
        ack.commandId = c.commandId ∧ ack.action = c.action ∧ (ack.applied = true → ∀ b,
          c.action.pausing = some b → .controlAck ack ∈ p.sent ∨ p'.applied c.runId = some b) := by
  rcases mem_sent_next h hack with hold | ⟨c, room, result, rfl, he⟩
  · exact .inl hold
  · obtain ⟨hR, hn, haction, -⟩ := controlAck_eq he
    refine .inr ⟨c, room, rfl, hR, hn, haction, fun happlied b hb => ?_⟩
    cases h
    exact acked_handleControl hack happlied hb

end Process

end Agent

end Loadr
