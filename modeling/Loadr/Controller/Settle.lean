import Loadr.Controller.Barrier
import Loadr.Controller.StateLock

/-!
# A run that cannot start is settled

Once a preparation failure is recorded or the preparation has timed out, the run's own tasks bring
it to its end (`Barrier.settles_of_doomed`).  Only the state lock is in their way, which a metrics
delta holds while it is merged; its holder can always leave that section.
-/

namespace Loadr

open Option

namespace Controller

namespace Barrier

variable {M : Metering} {env : Env M} {inner : Inner M} {op : Op M} {o : Outcome M}
  {s s' : State M} {R : String} {run : ControllerRun M}

variable {n : ℕ} {rest p q : List (Op M)} {t : TaskId}

theorem holding_head (hh : Holding R n p) (env : Env M) (inner : Inner M) :
    ∃ op rest, p = op :: rest ∧ (∃ o, exec env inner op = some o) ∧
      (∀ R b, op ≠ .spawnBarrier R b) ∧ ∀ R, op ≠ .broadcastDone R := by
  cases hh <;> exact ⟨_, _, rfl, ⟨_, rfl⟩, fun _ _ => nofun, fun _ => nofun⟩

/-! ## The way to the end -/

def idle (t : TaskId) : Action M := .step t { timeout := true }

def Settled (inner : Inner M) (R : String) : Prop :=
  ∃ run, inner.runs[R]? = some run ∧ run.state.isTerminal = true

/-- Steps of the controller's tasks alone settle the run. -/
def Settles (s : State M) (R : String) : Prop :=
  ∃ (ts : List TaskId) (s' : State M),
    (machine M).run s (ts.map idle) = some s' ∧ Settled s'.shared R

/-- The run cannot start any more. -/
structure Doomed (s : State M) (R : String) : Prop where
  startable : Startable s
  reachable : (machine M).Reachable s
  known : R ∈ s.shared.runs
  decided : .prepFailure R ∈ s.trace ∨ .timedOut R ∈ s.trace

theorem Doomed.exists_run (h : Doomed s R) : ∃ run, s.shared.runs[R]? = some run :=
  isSome_iff_exists.1 (Std.ExtTreeMap.mem_iff_isSome_getElem?.1 h.known)

theorem settles_of_settled (h : Settled s.shared R) : Settles s R := ⟨[], s, rfl, h⟩

section

variable (h : Doomed s R) (hprog : s.tasks t = op :: rest)
  (hexec : exec { timeout := true } s.shared op = some o)
include h hprog hexec

theorem Doomed.settles_of_step
    (hnext : Doomed (s.commit t rest o) R → Settles (s.commit t rest o) R) : Settles s R := by
  have hstep : (machine M).next s (idle t) = some (s.commit t rest o) :=
    Tasks.State.step_eq_some.2 ⟨op, rest, o, hprog, hexec, rfl⟩
  have hdoomed : Doomed (s.commit t rest o) R :=
    { startable := h.startable.exec_step hprog hexec rfl
      reachable := h.reachable.step hstep
      known := exec_mem_runs hexec h.known
      decided := h.decided.imp (List.mem_append_right _) (List.mem_append_right _) }
  obtain ⟨ts, s', hrun, hs'⟩ := hnext hdoomed
  refine ⟨t :: ts, s', ?_, hs'⟩
  show ((machine M).next s (idle t)).bind _ = some s'
  rw [hstep]
  exact hrun

theorem Doomed.settles_of_own (hspawn : ∀ R b, op ≠ .spawnBarrier R b)
    (hdone : ∀ R, op ≠ .broadcastDone R)
    (hnext : ∀ s', Doomed s' R → s'.tasks t = o.ops ++ rest → Settles s' R) : Settles s R := by
  refine h.settles_of_step hprog hexec fun h' => hnext _ h' ?_
  rw [tasks_commit hexec hspawn hdone, if_pos rfl]

end

theorem exec_isPrompt (env : Env M) (inner : Inner M) (hop : isPrompt op = true) :
    ∃ o, exec env inner op = some o := by
  cases op <;> simp only [isPrompt, Bool.false_eq_true] at hop
  case noteAbort | stopRun | send => exact ⟨_, rfl⟩

/-- A task gets through operations that never wait; what is left then settles the run. -/
theorem Doomed.settles_of_sends (hp : ∀ op ∈ p, ∃ k item, op = .send k item) (h : Doomed s R)
    (hprog : s.tasks t = p ++ q) (hq : ∀ s', Doomed s' R → s'.tasks t = q → Settles s' R) :
    Settles s R := by
  induction p generalizing s with
  | nil => exact hq s h hprog
  | cons op p ih =>
    obtain ⟨hop, hrest⟩ := List.forall_mem_cons.1 hp
    obtain ⟨k, item, rfl⟩ := hop
    have hexec : exec { timeout := true } s.shared (.send k item) =
        some (deliver s.shared true k item) := rfl
    exact h.settles_of_own hprog hexec (by simp) (by simp)
      fun s' h' hprog' => ih hrest h' hprog'

theorem Doomed.settles_of_prompt (hp : Prompt p) (h : Doomed s R) (hprog : s.tasks t = p ++ q)
    (hq : ∀ s', Doomed s' R → s'.tasks t = q → Settles s' R) : Settles s R := by
  induction p generalizing s with
  | nil => exact hq s h hprog
  | cons op p ih =>
    obtain ⟨hop, hp⟩ := List.forall_mem_cons.1 hp
    obtain ⟨o, hexec⟩ := exec_isPrompt { timeout := true } s.shared hop
    refine h.settles_of_own hprog hexec ?_ ?_ fun s' h' hprog' => ?_
    · rintro R b rfl
      cases hop
    · rintro R rfl
      cases hop
    · exact h'.settles_of_sends (sends_of_exec hexec hop) hprog' fun s'' h'' => ih hp h''

theorem Doomed.settles_of_holding {k : ℕ} (hh : Holding R n p) (h : Doomed s R)
    (hprog : s.tasks (.session k) = p ++ rest) (hbarrier : s.tasks (.barrier R) = q)
    (hfree : ∀ s' run, Doomed s' R → s'.tasks (.barrier R) = q → s'.shared.runs[R]? = some run →
      run.stateHeld = false → Settles s' R) : Settles s R := by
  induction n using Nat.strong_induction_on generalizing s p with
  | _ n ih =>
    obtain ⟨run, hr⟩ := h.exists_run
    obtain ⟨op, p', rfl, ⟨o, hexec⟩, hspawn, hdone⟩ := holding_head hh { timeout := true } s.shared
    rw [List.cons_append] at hprog
    refine h.settles_of_step hprog hexec fun h' => ?_
    have hbarrier' : (s.commit (.session k) (p' ++ rest) o).tasks (.barrier R) = q := by
      rw [tasks_commit hexec hspawn hdone, if_neg nofun, hbarrier]
    rcases holding_exec hh hexec hr with ⟨rfl, -⟩ | ⟨-, m, hm, hh'⟩
    · exact hfree _ _ h' hbarrier' (exec_deltaRelease hexec hr) rfl
    · refine ih m hm hh' h' ?_ hbarrier'
      rw [tasks_commit hexec hspawn hdone, if_pos rfl, List.append_assoc]

theorem Doomed.settles_of_free (h : Doomed s R)
    (hfree : ∀ s' run, Doomed s' R → s'.tasks (.barrier R) = s.tasks (.barrier R) →
      s'.shared.runs[R]? = some run → run.stateHeld = false → Settles s' R) : Settles s R := by
  obtain ⟨run, hr⟩ := h.exists_run
  by_cases hheld : run.stateHeld = true
  · have hlock := (stateLocks_of_reachable h.reachable).lock R run hr
    rw [hheld] at hlock
    cases hlock with
    | held k n p rest hprog hh => exact h.settles_of_holding hh hprog rfl hfree
  · exact hfree s run h rfl hr (Bool.eq_false_iff.2 hheld)

theorem Doomed.settles_of_finalize {verdict : RunState} (hp : Prompt p) (h : Doomed s R)
    (hprog : s.tasks (.barrier R) = p ++ [.finalize R verdict]) : Settles s R := by
  refine h.settles_of_prompt hp hprog fun s₁ h₁ hprog₁ => ?_
  refine h₁.settles_of_free fun s₂ run h₂ hprog₂ hr hfree => ?_
  rw [hprog₁] at hprog₂
  have hverdict : verdict.isTerminal = true := h₂.startable.life.verdicts.head hprog₂
  by_cases hterm : run.state.isTerminal = true
  · exact settles_of_settled ⟨run, hr, hterm⟩
  · have hexec : exec { timeout := true } s₂.shared (.finalize R verdict) = some
        { shared := s₂.shared.modifyRun R fun run => run.finalize verdict 0
          ops := [.releaseReservations R, .notifyPrep R]
          events := [.finalized R verdict] } := by
      simp [exec, withState, hr, hfree, hterm]
    refine h₂.settles_of_step hprog₂ hexec fun _ => settles_of_settled ?_
    exact ⟨run.finalize verdict 0, getElem?_modifyRun hr _, hverdict⟩

theorem Doomed.settles_of_giveUp {reason : String} {verdict : RunState} (h : Doomed s R)
    (hprog : s.tasks (.barrier R) = giveUp R reason verdict) : Settles s R := by
  have hprompt : Prompt [.noteAbort R reason, (.stopRun R : Op M)] := by simp [Prompt, isPrompt]
  exact h.settles_of_finalize hprompt hprog

theorem Doomed.settles_of_timeout (h : Doomed s R)
    (hprog : s.tasks (.barrier R) = [.barrierTimeout R]) : Settles s R := by
  obtain ⟨run, hr⟩ := h.exists_run
  have hexec : exec { timeout := true } s.shared (.barrierTimeout R) =
      some { shared := s.shared, ops := giveUp R ("preparation timed out waiting for: " ++
        ", ".intercalate (waiting run)) .failed } := by
    simp only [exec, withRun, hr]
  exact h.settles_of_own hprog hexec (by simp) (by simp)
    fun s' h' hprog' => h'.settles_of_giveUp hprog'

theorem Doomed.settles_of_check {b : ℕ} (h : Doomed s R)
    (hprog : s.tasks (.barrier R) = [.barrierCheck R b]) : Settles s R := by
  refine h.settles_of_free fun s₁ run h₁ hprog₁ hr hfree => ?_
  rw [hprog] at hprog₁
  by_cases hterm : run.state.isTerminal = true
  · exact settles_of_settled ⟨run, hr, hterm⟩
  have hfailed : run.prep.failure ≠ none := by
    rcases h₁.decided with hm | hm
    · exact ((h₁.startable.runs R run hr).failed hm).1
    · exact absurd hm (h₁.startable.life.head hprog₁).2.2.2.2
  obtain ⟨⟨reason, verdict⟩, hfailure⟩ := ne_none_iff_exists'.1 hfailed
  have hexec : exec { timeout := true } s₁.shared (.barrierCheck R b) =
      some { shared := s₁.shared, ops := giveUp R reason verdict } := by
    simp [exec, withState, hr, hfree, barrierCheck, hterm, hfailure]
  exact h₁.settles_of_own hprog₁ hexec (by simp) (by simp)
    fun s' h' hprog' => h'.settles_of_giveUp hprog'

theorem Doomed.settles_of_park {b : ℕ} (h : Doomed s R)
    (hprog : s.tasks (.barrier R) = [.barrierPark R b]) : Settles s R := by
  obtain ⟨run, hr⟩ := h.exists_run
  by_cases hnotify : run.prepNotify = true
  · have hexec : exec { timeout := true } s.shared (.barrierPark R b) =
        some { shared := s.shared.modifyRun R fun run => { run with prepNotify := false }
               ops := [.barrierCheck R b] } := by
      simp [exec, hr, hnotify]
    exact h.settles_of_own hprog hexec (by simp) (by simp)
      fun s' h' hprog' => h'.settles_of_check hprog'
  · have hexec : exec { timeout := true } s.shared (.barrierPark R b) =
        some { shared := s.shared, ops := [.barrierTimeout R], events := [.timedOut R] } := by
      simp [exec, hr, hnotify]
    exact h.settles_of_own hprog hexec (by simp) (by simp)
      fun s' h' hprog' => h'.settles_of_timeout hprog'

theorem settles_of_doomed (h : Doomed s R) : Settles s R := by
  have habsent : R ∉ s.shared.runs → Settles s R := fun hR => absurd h.known hR
  have hstage := h.startable.life.stage R
  generalize hp : s.tasks (.submit R) = p at hstage
  generalize hq : s.tasks (.barrier R) = q at hstage
  cases hstage with
  | absent hR | reserving _ _ hR | inserting _ _ _ hR => exact habsent hR
  | spawning ops b hops =>
    refine h.settles_of_prompt hops hp fun s₁ h₁ hprog₁ => ?_
    refine h₁.settles_of_step hprog₁ rfl fun h₂ => h₂.settles_of_check (b := b) ?_
    exact Function.update_self _ _ _
  | spawned _ hb =>
    cases hb with
    | checking => exact h.settles_of_check hq
    | parking => exact h.settles_of_park hq
    | failing _ _ _ _ hs =>
      rcases hs with hterm | hq' | ⟨ops, verdict, hops, hq'⟩
      · exact settles_of_settled hterm
      · exact h.settles_of_timeout (hq.trans hq')
      · exact h.settles_of_finalize hops (hq.trans hq')
    | committed t _ hc ht =>
      obtain ⟨run, hr, hstart⟩ := hc
      rcases h.decided with hm | hm
      · cases hstart.symm.trans ((h.startable.runs R run hr).failed hm).2
      · cases ht hm

end Barrier

end Controller

end Loadr
