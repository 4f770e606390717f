import Loadr.Flow.Failures

/-!
# Retries

A `retry` step without `until` takes an attempt as successful if `lastRequestFailed` is false at its
end.  Whether the last request of the attempt failed is read off its transcript (`Watch`): a request
that ends early counts as failed, but leaves the flag as it is; a nested `retry` or a parallel step
sets the flag back even if no request is executed inside.
-/

namespace Loadr.Flow

open Dialogue List

/-! ## Watching a run -/

/-- The last request of a flow: there is none, it passed, it failed and the flag does not say so, or
it failed and the flag says so. -/
inductive Verdict
  | idle
  | passed
  | unseen
  | failed
deriving DecidableEq

namespace Verdict

def fails (v : Verdict) : Bool := v = unseen || v = failed

/-- Of branches that run at the same time, the last request of each counts. -/
def both : Verdict → Verdict → Verdict
  | failed, _ | _, failed => failed
  | unseen, _ | _, unseen => unseen
  | passed, _ | _, passed => passed
  | idle, idle => idle

theorem both_eq_failed {v v' : Verdict} : v.both v' = failed ↔ v = failed ∨ v' = failed := by
  cases v <;> cases v' <;> simp [both]

end Verdict

/-- The flow or one branch of it: its script engine, the verdict up to its last parallel step, and
that of the branches of this step so far. -/
structure Strand where
  engine : Option Script
  before : Verdict := .idle
  joined : Verdict := .idle

namespace Strand

def verdict (s : Strand) : Verdict := if s.joined = .idle then s.before else s.joined

def put (s : Strand) (v : Verdict) : Strand := ⟨s.engine, v, .idle⟩

/-- A request that ends early fails, but does not set the flag. -/
def early (s : Strand) : Strand := s.put (if s.verdict = .failed then .failed else .unseen)

def reset (s : Strand) : Strand := s.put (if s.verdict = .failed then .unseen else s.verdict)

@[simp] theorem verdict_put (s : Strand) (v : Verdict) : (s.put v).verdict = v := rfl

theorem early_eq_failed {s : Strand} : s.early.verdict = .failed ↔ s.verdict = .failed := by
  simp [early]

theorem reset_ne_failed (s : Strand) : s.reset.verdict ≠ .failed := by
  by_cases h : s.verdict = .failed <;> simp [reset, h]

end Strand

/-- The strand that runs, and those that wait for it. -/
structure Watch where
  strand : Strand
  outer : List Strand := []

namespace Watch

def update (w : Watch) (s : Strand) : Watch := { w with strand := s }

def mark (w : Watch) : Mark → Watch
  | .handled req =>
    w.update (w.strand.put (if unscripted w.strand.engine req.assert then .failed else .passed))
  | .unprepared | .unhandled => w.update w.strand.early
  | .answered response => if response.failed then w.update (w.strand.put .failed) else w
  | .dropped | .unextracted | .unasserted => w.update (w.strand.put .failed)
  | .reset => w.update w.strand.reset
  | .fork => ⟨⟨none, .idle, .idle⟩, w.strand :: w.outer⟩
  | .join => match w.outer with
    | s :: outer => ⟨{ s with joined := s.joined.both w.strand.verdict }, outer⟩
    | [] => w
  | .prepared | .exhausted | .cut => w

/-- What is seen of a run of a flow with this script engine. -/
def of (script : Option Script) (ms : List Mark) : Watch :=
  ms.foldl mark ⟨⟨script, .idle, .idle⟩, []⟩

end Watch

/-- Along these marks the strand goes from one value of the flag to another. -/
def Advances (script : Option Script) (before after : Bool) (ms : List Mark) : Prop :=
  ∀ w : Watch, w.strand.engine = script → (w.strand.verdict = .failed ↔ before = true) →
    ∃ s : Strand, ms.foldl Watch.mark w = w.update s ∧ s.engine = script ∧
      (s.verdict = .failed ↔ after = true)

section Advances

variable {script : Option Script} {a b c : Bool} {ms ms' : List Mark}

theorem advances_nil (b : Bool) : Advances script b b [] :=
  fun w hengine hflag => ⟨w.strand, rfl, hengine, hflag⟩

theorem Advances.append (h : Advances script a b ms) (h' : Advances script b c ms') :
    Advances script a c (ms ++ ms') := by
  intro w hengine hflag
  obtain ⟨s, hs, hengine, hflag⟩ := h w hengine hflag
  obtain ⟨s', hs', hafter⟩ := h' (w.update s) hengine hflag
  exact ⟨s', by rw [foldl_append, hs, hs']; rfl, hafter⟩

theorem advances_reset (b : Bool) : Advances script b false [.reset] :=
  fun w hengine _ => ⟨w.strand.reset, rfl, hengine, by simpa using w.strand.reset_ne_failed⟩

/-! ## Requests -/

/-- Marks of a request behind that of its handler. -/
def Mark.follows : Mark → Bool
  | .answered _ | .dropped | .unextracted | .unasserted => true
  | _ => false

theorem foldl_follows (h : ∀ m ∈ ms, m.follows = true) (w : Watch) (v : Verdict) :
    ms.foldl Watch.mark (w.update (w.strand.put v)) =
      w.update (w.strand.put (if ms.any Mark.fails then .failed else v)) := by
  induction ms generalizing v with
  | nil => simp
  | cons m ms ih =>
    obtain ⟨hm, hms⟩ := forall_mem_cons.1 h
    have hone : (w.update (w.strand.put v)).mark m =
        w.update (w.strand.put (if m.fails then .failed else v)) := by
      cases m with
      | answered response => cases hr : response.failed <;> simp [Watch.mark, Mark.fails, hr]; rfl
      | dropped | unextracted | unasserted => rfl
      | _ => cases hm
    rw [foldl_cons, hone, ih hms, any_cons]
    cases m.fails <;> simp

theorem Settled.advances {req : CompiledRequest} {v : List F64} (h : Settled script req ms v)
    (hflag : Flagged script req a ms b) : Advances script a b ms := by
  obtain ⟨hcut, rfl⟩ := hflag
  cases h with
  | early => simp at hcut
  | exhausted => exact fun w hengine hflag => ⟨w.strand, rfl, hengine, hflag⟩
  | unprepared | unhandled =>
    exact fun w hengine hflag => ⟨w.strand.early, rfl, hengine, Strand.early_eq_failed.trans hflag⟩
  | cut h =>
    cases h with
    | cut h => simp at hcut
  | @concluded m v response h n k =>
    intro w hengine _
    have hfollows : ∀ m' ∈ m ++ (replicate n .unextracted ++ replicate k .unasserted),
        m'.follows = true := by
      simp only [forall_mem_append]
      refine ⟨?_, ?_, ?_⟩
      · cases h <;> simp [Mark.follows]
      · simp +contextual [mem_replicate, Mark.follows]
      · simp +contextual [mem_replicate, Mark.follows]
    have hfold := foldl_follows hfollows w
      (if unscripted script req.assert then .failed else .passed)
    rw [← hengine] at hfold ⊢
    refine ⟨_, hfold, rfl, ?_⟩
    simp only [Strand.verdict_put, requestFailed]
    grind [Mark.isHandled, Mark.fails]

end Advances

/-! ## Flows -/

section Flows

variable {program : ScenarioProgram} {script : Option Script} {α : Type}

/-- In every complete run of the part, what is seen goes with the flag. -/
def Observes (program : ScenarioProgram) (script : Option Script) (vu : VuContext) (α : Type)
    (view : α → VuContext) (d : Run α) : Prop :=
  d.Always Output.IsAwait fun t r => ∀ a ∈ r,
    Advances script vu.lastRequestFailed (view a).lastRequestFailed (marks program t)

theorem observes_ask {vu : VuContext} {q : Query} {view : q.Answer → VuContext}
    (h : ∀ a, marksAt program (.asked q a) = [])
    (hview : ∀ a, (view a).lastRequestFailed = vu.lastRequestFailed) :
    Observes program script vu _ view (ask q) := by
  rintro a _ ⟨⟩
  rw [hview, marks, flatMap_singleton, h]
  exact advances_nil _

theorem observes_tell {vu : VuContext} {o : Output} (h : marksAt program (.told o) = []) :
    Observes program script vu Unit (fun _ => vu) (tell o) := by
  refine ⟨fun _ => nofun, ?_⟩
  rintro _ ⟨⟩
  rw [marks, flatMap_singleton, h]
  exact advances_nil _

theorem logic_observes (program : ScenarioProgram) (script : Option Script) :
    Logic (fun _ => True) (Observes program script) where
  pure _ hflag := by
    rintro _ ⟨⟩
    rw [hflag]
    exact advances_nil _
  bind hd hf := by
    refine always_bind.2 (hd.mono fun t r h => ?_)
    cases r with
    | none => rintro _ ⟨⟩
    | some a =>
      refine (hf a trivial).mono fun u s hs b hb => ?_
      rw [marks, flatMap_append]
      exact (h a rfl).append (hs b hb)
  pause _ := observes_tell rfl
  feed _ _ := observes_tell rfl
  exception _ _ _ := observes_tell rfl
  reset _ hflag := by
    refine ⟨by rintro _ _ ⟨⟩, ?_⟩
    rintro _ ⟨⟩
    rw [hflag]
    exact advances_reset _
  script _ _ hsite _ := observes_ask (by rcases hsite with rfl | rfl | rfl <;> exact fun _ => rfl)
    fun _ => rfl
  render script _ _ := observes_ask (fun _ => rfl) fun _ => by cases script <;> rfl
  items script _ _ := observes_ask (fun _ => rfl) fun _ => by cases script <;> rfl

/-! ### Parallel steps -/

theorem foldl_marks_severed (elapsed : F64) (t : Transcript) (w : Watch) :
    (marks program (severed elapsed t)).foldl Watch.mark w =
      (marks program t).foldl Watch.mark w := by
  induction t generalizing w with
  | nil => rfl
  | cons e t ih =>
    have hone : ((severedAt elapsed e).flatMap (marksAt program)).foldl Watch.mark w =
        (marksAt program e).foldl Watch.mark w := by
      cases e with
      | asked => simp [severedAt]
      | told o | cut o => cases o <;> rfl
    simp only [severed, marks, flatMap_cons, flatMap_append, foldl_append, hone] at ih ⊢
    exact ih _

theorem runAll_joined {vu : VuContext} {branches : List (VuContext → Run Result)}
    (h : ∀ b ∈ branches, ∀ vu, Observes program none vu _ Result.vu (b vu)) :
    (runAll vu branches).Always Output.IsAwait fun t r => ∀ rs, r = some (some rs) → ∀ w : Watch,
      ∃ s, (marks program t).foldl Watch.mark w = w.update s ∧ s.engine = w.strand.engine ∧
        s.before = w.strand.before ∧ (s.joined = .failed ↔
          w.strand.joined = .failed ∨ rs.any (·.vu.lastRequestFailed) = true) := by
  induction branches with
  | nil =>
    rintro rs hrs w
    cases hrs
    exact ⟨w.strand, rfl, rfl, rfl, by simp⟩
  | cons b branches ih =>
    refine always_bind.2 ⟨fun h => h.elim, always_bind.2 ?_⟩
    refine (always_sever (h b (by simp) (childContext vu))).mono ?_
    rintro _ _ ⟨t, elapsed, o, rfl, rfl, ht⟩
    refine always_bind.2 ⟨fun h => h.elim, always_bind.2 ?_⟩
    refine (ih fun b' hb' => h b' (by simp [hb'])).mono fun u r hu => ?_
    cases r with
    | none => exact fun _ => nofun
    | some others =>
      intro rs hrs w
      obtain ⟨r, hr, rest, hrest, rfl⟩ : ∃ r, o = some r ∧ ∃ rest, others = some rest ∧
          r :: rest = rs := by
        simpa [Option.bind_eq_some_iff, Option.map_eq_some_iff] using hrs
      subst hr hrest
      obtain ⟨child, hchild, -, hfailed⟩ := ht r rfl ⟨⟨none, .idle, .idle⟩, w.strand :: w.outer⟩ rfl
        (by simp [Strand.verdict, childContext])
      obtain ⟨s, hs, hengine, hbefore, hjoined⟩ := hu rest rfl
        ⟨{ w.strand with joined := w.strand.joined.both child.verdict }, w.outer⟩
      rw [← foldl_marks_severed elapsed] at hchild
      refine ⟨s, ?_, hengine, hbefore, ?_⟩
      · simp only [marks, flatMap_append, foldl_append, append_nil] at hchild hs ⊢
        change foldl Watch.mark (foldl Watch.mark (foldl Watch.mark
          ⟨⟨none, .idle, .idle⟩, w.strand :: w.outer⟩ _) _) _ = _
        rw [hchild]
        exact hs
      · rw [hjoined, Verdict.both_eq_failed, hfailed, or_assoc, any_cons, Bool.or_eq_true]

theorem observes_runParallel {vu : VuContext} {branches : List (VuContext → Run Result)}
    (h : ∀ b ∈ branches, ∀ vu, Observes program none vu _ Result.vu (b vu)) :
    Observes program script vu _ StepResult.vu (runParallel branches vu) := by
  refine always_bind.2 ⟨fun h => h.elim, always_bind.2 (always_bind.2 ?_)⟩
  refine (runAll_joined h).mono fun t r ht => ?_
  match r with
  | none => exact fun _ => nofun
  -- a dropped iteration does not go on
  | some none => exact ⟨fun _ _ => nofun, fun never => never.elim⟩
  | some (some rs) =>
    rintro _ ⟨⟩ w hengine hflag
    obtain ⟨s, hs, hengine', hbefore, hjoined⟩ := ht rs rfl (w.update w.strand.reset)
    refine ⟨s, ?_, hengine'.trans hengine, ?_⟩
    · simp only [marks, flatMap_append, foldl_append, append_nil] at hs ⊢
      exact hs
    · have hany : s.joined = .failed ↔ (joinBranches vu rs).vu.lastRequestFailed = true := by
        rw [hjoined]
        simp [joinBranches, merge, Watch.update, Strand.reset, Strand.put, Function.comp_def]
      by_cases hidle : s.joined = .idle
      · have hbefore : s.before ≠ .failed := hbefore ▸ w.strand.reset_ne_failed
        simp only [Strand.verdict, hidle, if_true, ← hany]
        simp [hbefore]
      · simpa only [Strand.verdict, hidle, if_false] using hany

theorem flowLogic_observes (program : ScenarioProgram) :
    FlowLogic (fun _ _ => True) fun _ => Observes program where
  logic _ := logic_observes program
  congr h _ := h
  draw hq _ := by
    refine observes_ask ?_ fun _ => rfl
    rcases hq with rfl | ⟨_, rfl⟩ | ⟨_, rfl⟩ | ⟨_, rfl⟩ <;> exact fun _ => rfl
  group name hbody _ := by
    refine always_bind.2 (always_relay.2 ?_)
    simp only [isAwait_within]
    refine (hbody _ trivial).mono fun t r h => ?_
    cases r with
    | none => exact fun _ => nofun
    | some r =>
      rintro _ ⟨⟩
      rw [append_nil, marks_within]
      exact h r rfl
  parallel hbranch _ := observes_runParallel fun b hb vu => hbranch b hb vu trivial

theorem observes_runSteps (program : ScenarioProgram) (script : Option Script)
    (steps : List CompiledStep) (vu : VuContext) :
    Observes program script vu _ Result.vu (runSteps program script steps vu) := by
  refine (flowLogic_observes program).runSteps (fun _ script req vu _ => ?_) script steps [] trivial
  exact Always.mono (shows_runRequest program 0 script req vu) fun _ _ h x hx =>
    h.1.advances (h.2 x hx)

end Flows

/-! ## The attempts of a retry step -/

/-- A run of the steps of a retry step, from where the flag has been set back, and what was told
before that. -/
structure Attempt (program : ScenarioProgram) (script : Option Script)
    (steps : List CompiledStep) where
  lead : Transcript
  leads : ∀ e ∈ lead, ∃ o : Output, e = .told o ∧ (o.IsAwait ∨ o = .reset)
  vu : VuContext
  fresh : vu.lastRequestFailed = false
  transcript : Transcript
  result : Result
  runs : Runs Output.IsAwait (runSteps program script steps vu) transcript (some result)

section Attempts

variable {program : ScenarioProgram} {script : Option Script} {steps : List CompiledStep}

namespace Attempt

def completed (a : Attempt program script steps) : Bool := a.result.outcome = .completed

/-- The attempt is taken as successful, so that there is no other one. -/
def succeeded (a : Attempt program script steps) : Bool :=
  a.completed && !a.result.vu.lastRequestFailed

/-- What the answers to the attempt say about its last request. -/
def verdict (a : Attempt program script steps) : Verdict :=
  (Watch.of script (marks program a.transcript)).strand.verdict

theorem verdict_eq_failed (a : Attempt program script steps) :
    a.verdict = .failed ↔ a.result.vu.lastRequestFailed = true := by
  obtain ⟨s, hs, -, hflag⟩ := always_iff.1 (observes_runSteps program script steps a.vu) _ _ a.runs
    a.result rfl ⟨⟨script, .idle, .idle⟩, []⟩ rfl (by simp [Strand.verdict, a.fresh])
  rw [verdict, Watch.of, hs]
  exact hflag

end Attempt

/-- What the attempts of a retry step without `until` are. -/
structure RetrySound (budget : ℕ) (attempts : List (Attempt program script steps)) : Prop where
  begun : attempts ≠ []
  within : attempts.length ≤ budget
  again : ∀ a ∈ attempts.dropLast, a.completed ∧ a.succeeded = false
  ended : ∀ a ∈ attempts.getLast?, a.completed → a.succeeded ∨ attempts.length = budget

namespace RetrySound

variable {n : ℕ} {a : Attempt program script steps} {attempts : List (Attempt program script steps)}

theorem single (h : a.completed → a.succeeded ∨ n = 0) : RetrySound (n + 1) [a] where
  begun := cons_ne_nil a []
  within := Nat.succ_le_succ n.zero_le
  again := by simp
  ended b hb hcompleted := by
    obtain rfl : a = b := by simpa using hb
    exact (h hcompleted).imp_right fun h => by simp [h]

theorem cons (h : RetrySound n attempts) (ha : a.completed ∧ a.succeeded = false) :
    RetrySound (n + 1) (a :: attempts) where
  begun := cons_ne_nil a attempts
  within := Nat.succ_le_succ h.within
  again := by
    rw [dropLast_cons_of_ne_nil h.begun]
    exact forall_mem_cons.2 ⟨ha, h.again⟩
  ended := by
    have hlast : (a :: attempts).getLast? = attempts.getLast? := by
      obtain ⟨b, rest, rfl⟩ := exists_cons_of_ne_nil h.begun
      exact getLast?_cons_cons
    rw [hlast, length_cons, Nat.add_right_cancel_iff]
    exact h.ended

end RetrySound

/-- The transcript is that of these attempts. -/
def Tells (attempts : List (Attempt program script steps)) (t : Transcript) : Prop :=
  t = attempts.flatMap fun a => a.lead ++ a.transcript

theorem rounds_attempts {enter : ℕ → VuContext → Run (Bool × VuContext)}
    (henter : ∀ i vu, (enter i vu).Always Output.IsAwait fun t r => ∀ x ∈ r,
      x.1 = true ∧ x.2.lastRequestFailed = false ∧
        ∀ e ∈ t, ∃ o : Output, e = .told o ∧ (o.IsAwait ∨ o = .reset))
    (n i : ℕ) (vu : VuContext) :
    (rounds (runSteps program script steps) enter (fun vu => return (vu.lastRequestFailed, vu)) n i
      vu).Always Output.IsAwait fun t r => r.isSome → n = 0 ∧ t = [] ∨
        ∃ attempts : List (Attempt program script steps), Tells attempts t ∧
          RetrySound n attempts := by
  induction n generalizing i vu with
  | zero => exact fun _ => .inl ⟨rfl, rfl⟩
  | succ n ih =>
    refine always_bind.2 ((henter i vu).mono fun lead x hx => ?_)
    cases x with
    | none => exact nofun
    | some x =>
      obtain ⟨entered, vu⟩ := x
      obtain ⟨rfl, hfresh, hlead⟩ := hx _ rfl
      refine always_bind.2 (always_iff.2 fun t r hruns => ?_)
      cases r with
      | none => exact nofun
      | some r =>
        let a : Attempt program script steps := ⟨lead, hlead, vu, hfresh, t, r, hruns⟩
        have htells : Tells [a] (lead ++ t) := by simp [Tells, a]
        dsimp only
        cases hstop : r.outcome.stop with
        | some outcome =>
          refine fun _ => .inr ⟨[a], by simpa using htells, .single fun hcompleted => ?_⟩
          cases (stop_eq_none.2 (of_decide_eq_true hcompleted)).symm.trans hstop
        | none =>
          have hcompleted : a.completed = true := decide_eq_true (stop_eq_none.1 hstop)
          refine always_bind.2 ?_
          change Always _ (if r.vu.lastRequestFailed then _ else _) _
          cases hflag : r.vu.lastRequestFailed with
          | false =>
            refine fun _ => .inr ⟨[a], by simpa using htells, .single fun _ => .inl ?_⟩
            simp [Attempt.succeeded, hcompleted, a, hflag]
          | true =>
            refine always_bind.2 ((ih (i + 1) r.vu).mono fun u s hu => ?_)
            have ha : a.completed ∧ a.succeeded = false :=
              ⟨hcompleted, by simp [Attempt.succeeded, a, hflag]⟩
            cases s with
            | none => exact nofun
            | some rest =>
              refine fun _ => .inr ?_
              rcases hu rfl with ⟨rfl, rfl⟩ | ⟨attempts, hattempts, hsound⟩
              · exact ⟨[a], by simpa using htells, .single fun _ => .inr rfl⟩
              · refine ⟨a :: attempts, ?_, hsound.cons ha⟩
                simp [Tells, a, ← show u = _ from hattempts]

theorem enter_fresh (backoff : Option ℕ) (i : ℕ) (vu : VuContext) :
    Always Output.IsAwait (do
      pauseIf (i ≠ 0 && backoff.isSome) vu
      tell .reset
      always { vu.insert "attempt" (.number i) with lastRequestFailed := false })
      fun t r => ∀ x ∈ r, x.1 = true ∧ x.2.lastRequestFailed = false ∧
        ∀ e ∈ t, ∃ o : Output, e = .told o ∧ (o.IsAwait ∨ o = .reset) := by
  have hreset : Always Output.IsAwait (do
      tell .reset
      always { vu.insert "attempt" (.number i) with lastRequestFailed := false })
      fun t r => ∀ x ∈ r, t = [.told .reset] ∧ x.1 = true ∧ x.2.lastRequestFailed = false := by
    refine ⟨fun h => h.elim, ?_⟩
    rintro _ ⟨⟩
    exact ⟨rfl, rfl, rfl⟩
  cases hpause : (i ≠ 0 && backoff.isSome : Bool) with
  | false =>
    refine hreset.mono fun t r h x hx => ?_
    obtain ⟨rfl, hx⟩ := h x hx
    exact ⟨hx.1, hx.2, by simp⟩
  | true =>
    refine ⟨fun _ _ => nofun, hreset.mono fun t r h x hx => ?_⟩
    obtain ⟨rfl, hx⟩ := h x hx
    exact ⟨hx.1, hx.2, by simp [Output.IsAwait]⟩

/-- An attempt that completes is taken as successful only if its last request did not fail, unless
that failure is unseen.  A retry step without `until` makes at least one and at most `max times 1`
attempts, one more exactly after an attempt that is not taken as successful. -/
theorem retry_sees_failures (program : ScenarioProgram) (script : Option Script)
    (steps : List CompiledStep) :
    (∀ a : Attempt program script steps,
      (a.succeeded → a.verdict.fails = false) ↔ (a.completed → a.verdict ≠ .unseen)) ∧
    ∀ (times : ℕ) (backoff : Option ℕ) (vu : VuContext) (t : Transcript) (r : StepResult),
      Runs Output.IsAwait (runStep program script (.retry times none backoff steps) vu) t (some r) →
        ∃ attempts : List (Attempt program script steps), Tells attempts t ∧
          RetrySound (max times 1) attempts := by
  refine ⟨fun a => ?_, fun times backoff vu t r hruns => ?_⟩
  · have hverdict := a.verdict_eq_failed
    cases hv : a.verdict <;> cases hflag : a.result.vu.lastRequestFailed <;>
      simp_all [Attempt.succeeded, Verdict.fails]
  · have hrounds := @rounds_attempts program script steps _ (enter_fresh backoff) (max times 1) 0 vu
    exact (always_iff.1 hrounds t _ hruns rfl).resolve_left fun h => by omega

end Attempts

def search : CompiledRequest := ⟨"search", "http", "GET", [], [], []⟩

/-- Every request is prepared like this, and answered with the status 500. -/
def preparedAs (preparation : Preparation) : (q : Query) → Option q.Answer
  | .prepare _ => some ⟨preparation, fun _ => none, 0, [], []⟩
  | .handled _ => some true
  | .execute _ => some { protocolVersion := "HTTP/1.1", status := 500 }
  | _ => none

theorem retry_sees_failures_twice :
    ∃ t r, Runs Output.IsAwait (runStep { name := "shop", steps := [] } none
        (.retry 2 none none [.request search]) .new) t (some r) ∧
      ∃ attempts : List (Attempt { name := "shop", steps := [] } none [.request search]),
        Tells attempts t ∧ RetrySound 2 attempts := by
  obtain ⟨t, r, hruns, -, hsome⟩ := exists_runs_of_trial (W := Output.IsAwait)
    (d := runStep { name := "shop", steps := [] } none (.retry 2 none none [.request search]) .new)
    (preparedAs (.ready "search")) (fun _ => false) (by simp) (fun _ r => r.isSome)
    (by decide +kernel)
  obtain ⟨r, rfl⟩ := Option.isSome_iff_exists.1 hsome
  exact ⟨t, r, hruns, (retry_sees_failures _ none [.request search]).2 2 none .new t r hruns⟩

def unpreparedTrial : Option (Transcript × Option Result) :=
  (runSteps { name := "shop", steps := [] } none [.request search]
    (VuContext.new.insert "attempt" (.number 0))).trial (preparedAs .other) fun _ => false

def unpreparedAttempt : Attempt { name := "shop", steps := [] } none [.request search] where
  lead := [.told .reset]
  leads := by simp
  vu := VuContext.new.insert "attempt" (.number 0)
  fresh := rfl
  transcript := (unpreparedTrial.getD ([], none)).1
  result := ((unpreparedTrial.getD ([], none)).2).getD ⟨.new, [], .completed⟩
  runs := runs_of_trial (by simp) (show unpreparedTrial = _ from rfl)

/-- A request that cannot be prepared is not tried again, though there are three attempts. -/
theorem unprepared_request_taken_as_success :
    unpreparedAttempt.succeeded = true ∧ unpreparedAttempt.verdict.fails = true ∧
    ∃ r, Runs Output.IsAwait (runStep { name := "shop", steps := [] } none
      (.retry 3 none none [.request search]) .new)
        (unpreparedAttempt.lead ++ unpreparedAttempt.transcript) (some r) := by
  have htrial : (runStep { name := "shop", steps := [] } none
      (.retry 3 none none [.request search]) .new).trial (preparedAs .other) (fun _ => false) =
      some (unpreparedAttempt.lead ++ unpreparedAttempt.transcript,
        some ⟨unpreparedAttempt.vu, unpreparedAttempt.result.trace, none⟩) := rfl
  exact ⟨by decide +kernel, by decide +kernel, _, runs_of_trial (by simp) htrial⟩

end Loadr.Flow
