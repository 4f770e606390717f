import Loadr.Controller.Life

/-!
# How a step changes a run

Who is gone from a run after an operation, and what a step of the machine leaves of a run.
-/

namespace Loadr

open Std.ExtTreeMap Option

namespace Controller

variable {M : Metering} {env : Env M} {op : Op M} {run : ControllerRun M}

/-! ## Who is gone from a run -/

section

variable {R : String} {run' : ControllerRun M}

theorem RunEffect.lostEver_subset (h : RunEffect env R run op run') :
    run.lostEver ⊆ run'.lostEver := by
  cases h
  case sweepLostEver a => exact Finset.subset_insert a run.lostEver
  all_goals exact subset_rfl

variable {a : String}

theorem RunEffect.done_mono (h : RunEffect env R run op run')
    (ha : run.done.contains a = true) : run'.done.contains a = true := by
  cases h
  case markDone => rw [contains_insert, ha, Bool.or_true]
  all_goals exact ha

theorem RunEffect.lost_mono (h : RunEffect env R run op run') (hop : op ≠ .resumeLost a R)
    (ha : a ∈ run.lost) : a ∈ run'.lost := by
  cases h
  case restartedLost | sweepLost => exact Finset.mem_insert_of_mem ha
  case resumeLost b =>
    refine Finset.mem_erase.2 ⟨?_, ha⟩
    rintro rfl
    exact hop rfl
  all_goals exact ha

end

section

variable {s s' : State M} {act : Action M} {R : String} {run' : ControllerRun M}

theorem run_of_step (hstep : Step s act s') (hr' : s'.shared.runs[R]? = some run') :
    s.shared.runs[R]? = some run' ∨ ∃ t, Ran s t (fun env op _ =>
      (∃ run, s.shared.runs[R]? = some run ∧ RunEffect env R run op run') ∨
      ∃ sub selected, op = .insertRun sub selected ∧ sub.runId = R ∧
        run' = .submitted sub (selected.map (·.1)) env.now) act s' := by
  cases hstep with
  | exec hprog hexec => exact (exec_run hexec hr').imp_right fun hnew => ⟨_, hprog, hexec, hnew⟩
  | connect | submit | control => exact .inl hr'

theorem Life.run_of_step (hlife : Life s) (hstep : Step s act s')
    (hr : s.shared.runs[R]? = some run) :
    ∃ run', s'.shared.runs[R]? = some run' ∧ (run' = run ∨
      ∃ t, Ran s t (fun env op _ => RunEffect env R run op run') act s') := by
  cases hstep with
  | exec hprog hexec =>
    rcases hlife.run_of_exec hprog hexec hr with he | ⟨run', he, heff⟩
    · exact ⟨run, he, .inl rfl⟩
    · exact ⟨run', he, .inr ⟨_, hprog, hexec, heff⟩⟩
  | connect | submit | control => exact ⟨run, hr, .inl rfl⟩

end

end Controller

end Loadr
