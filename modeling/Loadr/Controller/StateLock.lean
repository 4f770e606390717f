import Loadr.Controller.Sessions

/-!
# The state lock during a merge

The metrics arm keeps the state lock of a run from the terminal check to the end of the merge.
`Controller.Lock` says who holds it: no task, or one session whose program begins with the rest of
that section (`Controller.Holding`).  While it is held the run is not settled.
-/

namespace Loadr

open List Option Bool

namespace Controller

variable {M : Metering} {env : Env M} {inner : Inner M} {op : Op M} {o : Outcome M}
  {s s' : State M} {act : Action M} {R : String} {run run' : ControllerRun M}

/-! ## Operations under the lock -/

def holds (R : String) : Op M → Bool
  | .deltaContributing _ R' _ | .deltaMerge _ R' _ | .deltaLost _ R' | .deltaDone _ R' _
  | .deltaRelease R' => R' == R
  | _ => false

def Free (R : String) (p : List (Op M)) : Prop := ∀ op ∈ p, holds R op = false

theorem holds_of_isFirst (h : isFirst op = true) : holds R op = false := by
  cases op <;> first | rfl | cases h

theorem holds_of_exec (h : exec env inner op = some o) {op' : Op M} (hop' : op' ∈ o.ops)
    (hh : holds R op' = true) : holds R op = true ∨ ∃ rc delta, op = .deltaState rc R delta := by
  have horigin := exec_ops h op' hop'
  cases op' <;> simp only [holds, false_eq_true] at hh
  case deltaContributing rc R' delta =>
    obtain rfl := horigin
    exact .inr ⟨rc, delta, by rw [beq_iff_eq.1 hh]⟩
  case deltaMerge =>
    obtain rfl := horigin
    exact .inl hh
  case deltaLost =>
    obtain ⟨delta, rfl⟩ := horigin
    exact .inl hh
  case deltaDone =>
    obtain ⟨rfl, -⟩ := horigin
    exact .inl hh
  case deltaRelease =>
    obtain ⟨rc, lost, rfl⟩ := horigin
    exact .inl hh

variable {n : ℕ} {p : List (Op M)}

/-- A program under the state lock of `R`, with the number of steps to the one that lets go. -/
inductive Holding (R : String) : ℕ → List (Op M) → Prop
  | contributing (rc : Received) (delta : M.Delta) : Holding R 5 [.deltaContributing rc R delta]
  | merging (rc : Received) (delta : M.Delta) : Holding R 4 [.deltaMerge rc R delta]
  | looking (rc : Received) : Holding R 3 [.deltaLost rc R]
  | zeroing (rc : Received) (lost : Bool) : Holding R 2 [.deltaDone rc R lost]
  | zeroed (a : String) : Holding R 1 [.zeroLiveGauges a R, .deltaRelease R]
  | releasing : Holding R 0 [.deltaRelease R]

theorem holding_exec (hh : Holding R n (op :: p)) (h : exec env inner op = some o)
    (hr : inner.runs[R]? = some run) : (op = .deltaRelease R ∧ o.ops ++ p = []) ∨
      op ≠ .deltaRelease R ∧ ∃ m < n, Holding R m (o.ops ++ p) := by
  cases hh with
  | contributing rc delta =>
    cases h
    exact .inr ⟨by simp, 4, by decide, .merging rc delta⟩
  | merging rc delta =>
    cases h
    exact .inr ⟨by simp, 3, by decide, .looking rc⟩
  | looking rc =>
    simp only [exec, withRun, hr, some.injEq] at h
    subst h
    exact .inr ⟨by simp, 2, by decide, .zeroing rc _⟩
  | zeroing rc lost =>
    simp only [exec, withRun, hr, some.injEq] at h
    subst h
    refine .inr ⟨by simp, ?_⟩
    dsimp only
    split
    · exact ⟨1, by decide, .zeroed rc.agentId⟩
    · exact ⟨0, by decide, .releasing⟩
  | zeroed a =>
    cases h
    exact .inr ⟨by simp, 0, by decide, .releasing⟩
  | releasing =>
    cases h
    exact .inl ⟨rfl, rfl⟩

/-! ## The holder -/

inductive Lock (s : State M) (R : String) : Bool → Prop
  | free : (∀ t, Free R (s.tasks t)) → Lock s R false
  | held (k n : ℕ) (p rest : List (Op M)) : s.tasks (.session k) = p ++ rest → Holding R n p →
    Free R rest → (∀ t, t ≠ .session k → Free R (s.tasks t)) → Lock s R true

theorem Lock.held_of_mem {held : Bool} {t : TaskId} (h : Lock s R held) (hop : op ∈ s.tasks t)
    (hh : holds R op = true) : held = true := by
  cases h with
  | free hfree => cases (hfree t op hop).symm.trans hh
  | held => rfl

structure StateLocks (s : State M) : Prop where
  lock : ∀ (R : String) (run : ControllerRun M), s.shared.runs[R]? = some run →
    Lock s R run.stateHeld
  unknown : ∀ R, s.shared.runs[R]? = none → ∀ t, Free R (s.tasks t)
  live : ∀ (R : String) (run : ControllerRun M), s.shared.runs[R]? = some run →
    run.stateHeld = true → run.state.isTerminal = false

section

variable {t : TaskId} {rest : List (Op M)} (hprog : s.tasks t = op :: rest)
  (hexec : exec env s.shared op = some o)

include hprog hexec

theorem free_commit {t' : TaskId} (hops : t' = t → Free R o.ops) (h : Free R (s.tasks t')) :
    Free R ((s.commit t rest o).tasks t') := by
  intro op' hop'
  rcases mem_commit hprog hexec hop' with ⟨hold, -⟩ | hbegins | ⟨ht, hnew⟩
  · exact h op' hold
  · exact holds_of_isFirst hbegins.isFirst
  · exact hops ht op' hnew

omit hprog hexec in
theorem exec_deltaState {rc : Received} {delta : M.Delta}
    (hexec : exec env inner (.deltaState rc R delta) = some o) (hr : inner.runs[R]? = some run) :
    run.stateHeld = false ∧ ((o.shared = inner ∧ o.ops = []) ∨
      run.state.isTerminal = false ∧
        o.shared.runs[R]? = some { run with stateHeld := true } ∧
        o.ops = [.deltaContributing rc R delta]) := by
  obtain ⟨hheld, rfl⟩ := withState_some hexec hr
  refine ⟨hheld, ?_⟩
  split_ifs with ht
  · exact .inl ⟨rfl, rfl⟩
  · exact .inr ⟨eq_false_iff.2 ht, getElem?_modifyRun hr _, rfl⟩

omit hprog hexec in
theorem exec_deltaRelease (hexec : exec env inner (.deltaRelease R) = some o)
    (hr : inner.runs[R]? = some run) :
    o.shared.runs[R]? = some { run with stateHeld := false } := by
  cases hexec
  exact getElem?_modifyRun hr _

theorem StateLocks.free_new (h : StateLocks s) (hr : s.shared.runs[R]? = none) :
    ∀ t', Free R ((s.commit t rest o).tasks t') := by
  have hops : Free R o.ops := by
    intro op' hop'
    by_contra hh
    rcases holds_of_exec hexec hop' (not_eq_false _ ▸ hh) with hh | ⟨rc, delta, rfl⟩
    · have hhead := h.unknown R hr t op (hprog ▸ mem_cons_self)
      cases hhead.symm.trans hh
    · rcases withState_cases hexec with ⟨-, rfl⟩ | ⟨run, hr', -, -⟩
      · cases hop'
      · cases hr.symm.trans hr'
  exact fun t' => free_commit hprog hexec (fun _ => hops) (h.unknown R hr t')

theorem StateLocks.lock_exec (h : StateLocks s) (hsess : Sessions s) (hlife : Life s)
    (hr : s.shared.runs[R]? = some run) (hr' : o.shared.runs[R]? = some run') :
    Lock (s.commit t rest o) R run'.stateHeld := by
  have hlock := h.lock R run hr
  have hsame : op ≠ .deltaRelease R → (∀ rc delta, op ≠ .deltaState rc R delta) →
      run'.stateHeld = run.stateHeld := by
    intro hrelease hstate
    rcases hlife.run_of_exec hprog hexec hr with he | ⟨run₁, he, heff⟩
    · cases he.symm.trans hr'
      rfl
    · cases he.symm.trans hr'
      cases heff
      case deltaState rc delta _ _ => cases hstate rc delta rfl
      case deltaRelease => cases hrelease rfl
      all_goals rfl
  have hfree {t'} (hop : holds R op = false) (hstate : ∀ rc delta, op ≠ .deltaState rc R delta) :
      Free R (s.tasks t') → Free R ((s.commit t rest o).tasks t') := by
    refine free_commit hprog hexec fun _ op' hop' => eq_false_iff.2 fun hh => ?_
    rcases holds_of_exec hexec hop' hh with hh | ⟨rc, delta, he⟩
    · cases hop.symm.trans hh
    · exact hstate rc delta he
  have hrelease : holds R op = false → op ≠ .deltaRelease R := by
    rintro hop rfl
    simp [holds] at hop
  generalize hheld : run.stateHeld = held at hlock hsame
  cases hlock with
  | free hall =>
    have hop := hall t op (hprog ▸ mem_cons_self)
    by_cases hstate : ∃ rc delta, op = .deltaState rc R delta
    · obtain ⟨rc, delta, rfl⟩ := hstate
      obtain ⟨-, ⟨hshared, hops⟩ | ⟨-, he, hops⟩⟩ := exec_deltaState hexec hr
      · rw [hshared] at hr'
        cases hr'.symm.trans hr
        rw [hheld]
        exact .free fun t' =>
          free_commit hprog hexec (fun _ => by rw [hops]; exact forall_mem_nil _) (hall t')
      · cases he.symm.trans hr'
        obtain ⟨k, rfl⟩ := hsess.delta (hprog ▸ mem_cons_self) rfl
        refine .held k 5 _ rest ?_ (.contributing rc delta)
          (fun op' hop' => hall (.session k) op' (hprog ▸ mem_cons_of_mem _ hop'))
          fun t' ht' => free_commit hprog hexec (fun ht => absurd ht ht') (hall t')
        rw [commit_tasks_session hexec k, if_pos rfl, hops]
    · have hstate : ∀ rc delta, op ≠ .deltaState rc R delta :=
        fun rc delta he => hstate ⟨rc, delta, he⟩
      rw [hsame (hrelease hop) hstate]
      exact .free fun t' => hfree hop hstate (hall t')
  | held k n p tail hk hh htail hothers =>
    have hstate : ∀ rc delta, op ≠ .deltaState rc R delta := by
      rintro rc delta rfl
      cases (exec_deltaState hexec hr).1.symm.trans hheld
    by_cases ht : t = .session k
    · subst ht
      have hothers' : ∀ t', t' ≠ .session k → Free R ((s.commit (.session k) rest o).tasks t') :=
        fun t' ht' => free_commit hprog hexec (fun ht => absurd ht ht') (hothers t' ht')
      cases p with
      | nil => cases hh
      | cons op₀ p =>
        rw [hprog, cons_append] at hk
        cases hk
        have htasks : (s.commit (.session k) (p ++ tail) o).tasks (.session k) =
            (o.ops ++ p) ++ tail := by
          rw [commit_tasks_session hexec k, if_pos rfl, append_assoc]
        rcases holding_exec hh hexec hr with ⟨rfl, hnil⟩ | ⟨hrelease, m, -, hm⟩
        · cases (exec_deltaRelease hexec hr).symm.trans hr'
          refine .free fun t' => ?_
          by_cases ht : t' = .session k
          · rw [ht, htasks, hnil]
            exact htail
          · exact hothers' t' ht
        · rw [hsame hrelease hstate]
          exact .held k m _ tail htasks hm htail hothers'
    · have hop := hothers t ht op (hprog ▸ mem_cons_self)
      rw [hsame (hrelease hop) hstate]
      refine .held k n p tail ?_ hh htail fun t' ht' => hfree hop hstate (hothers t' ht')
      rw [commit_tasks_session hexec k, if_neg (Ne.symm ht)]
      exact hk

theorem StateLocks.live_exec (h : StateLocks s) (hlife : Life s)
    (hr : s.shared.runs[R]? = some run) (hr' : o.shared.runs[R]? = some run')
    (hheld : run'.stateHeld = true) : run'.state.isTerminal = false := by
  rcases hlife.run_of_exec hprog hexec hr with he | ⟨run₁, he, heff⟩
  · cases he.symm.trans hr'
    exact h.live R _ hr hheld
  · cases he.symm.trans hr'
    cases heff
    case deltaState hlive => exact hlive
    case deltaRelease => cases hheld
    case finalize hfree _ => cases hfree.symm.trans hheld
    case eventStarted | commitStart | setStopping => rfl
    all_goals exact h.live R run hr hheld

theorem StateLocks.exec_step (h : StateLocks s) (hsess : Sessions s) (hlife : Life s) :
    StateLocks (s.commit t rest o) where
  lock R run' hr' := by
    cases hr : s.shared.runs[R]? with
    | some run => exact h.lock_exec hprog hexec hsess hlife hr hr'
    | none =>
      obtain ⟨sub, selected, -, rfl⟩ := exec_new_run hexec hr hr'
      exact .free (h.free_new hprog hexec hr)
  unknown R hr' := by
    refine h.free_new hprog hexec ?_
    cases hr : s.shared.runs[R]? with
    | none => rfl
    | some run =>
      rcases hlife.run_of_exec hprog hexec hr with he | ⟨run₁, he, -⟩
      · cases he.symm.trans hr'
      · cases he.symm.trans hr'
  live R run' hr' hheld := by
    cases hr : s.shared.runs[R]? with
    | some run => exact h.live_exec hprog hexec hlife hr hr' hheld
    | none =>
      obtain ⟨sub, selected, -, rfl⟩ := exec_new_run hexec hr hr'
      rfl

end

theorem StateLocks.opens {act : Action M} {t : TaskId} (h : StateLocks s)
    (ho : Opens s act t op s') (hidle : s.tasks t = []) : StateLocks s' := by
  have hfree : ∀ R t', Free R (s.tasks t') → Free R (s'.tasks t') := by
    intro R t' hf op' hop'
    rcases ho.mem hop' with hold | ⟨-, rfl⟩
    · exact hf op' hold
    · exact holds_of_isFirst ho.begins.isFirst
  refine ⟨fun R run hr => ?_, fun R hr t' => ?_, fun R run hr => ?_⟩
  · have hlock := h.lock R run (ho.runs ▸ hr)
    generalize run.stateHeld = held at hlock
    cases hlock with
    | free hf => exact .free fun t' => hfree R t' (hf t')
    | held k n p rest hk hh hrest hothers =>
      refine .held k n p rest ?_ hh hrest fun t' ht' => hfree R t' (hothers t' ht')
      rw [ho.tasks, if_neg]
      · exact hk
      · rintro rfl
        rw [hidle] at hk
        cases hh <;> cases hk
  · exact hfree R t' (h.unknown R (ho.runs ▸ hr) t')
  · exact h.live R run (ho.runs ▸ hr)

theorem stateLocks_of_reachable : (machine M).Reachable s → StateLocks s := by
  refine invariant_of_step (fun liveness => ?_) fun {s act s'} hreach h hstep => ?_
  · refine ⟨fun R run hr => ?_, fun R _ t op hop => ?_, fun R run hr => ?_⟩
    · cases hr
    · rw [initial_tasks liveness t op hop]
      rfl
    · cases hr
  · rcases step_cases hstep with ⟨t, hprog, hexec, -⟩ | ⟨t, op, ho⟩
    · exact h.exec_step hprog hexec (sessions_of_reachable hreach) (life_of_reachable hreach)
    · exact h.opens ho (ho.idle_of_reachable hreach)

end Controller

end Loadr
