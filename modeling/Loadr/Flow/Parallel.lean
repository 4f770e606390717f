import Loadr.Flow.Program

/-!
# Parallel branches

The step returns the first outcome of a branch that aborts, and otherwise completes.  The variables
of the branches are written back one branch after the other, the untouched ones with them.
-/

namespace Loadr.Flow

open Dialogue List

/-! ## The strongest outcome -/

def IterationOutcome.rank : IterationOutcome → ℕ
  | .completed => 0
  | .stopVu => 1
  | .abortScenario => 2
  | .abortTest _ => 3

/-- The outcome is one of the given ones, and none of them is stronger; without any it is to
complete. -/
def Strongest (outcome : IterationOutcome) (outcomes : List IterationOutcome) : Prop :=
  (outcome ∈ outcomes ∨ outcome = .completed) ∧ ∀ o ∈ outcomes, o.rank ≤ outcome.rank

/-- A branch that retires the virtual user is outranked by one that aborts, and only one kind of
abort occurs. -/
def Unmixed (outcomes : List IterationOutcome) : Prop :=
  (.stopVu ∈ outcomes → ∃ o ∈ outcomes, 2 ≤ o.rank) ∧
    ¬ (.abortScenario ∈ outcomes ∧ ∃ reason, .abortTest reason ∈ outcomes)

theorem Unmixed.perm {os os' : List IterationOutcome} (h : Unmixed os) (hperm : os'.Perm os) :
    Unmixed os' := by
  simpa only [Unmixed, hperm.mem_iff] using h

theorem strongest_eq (outcomes : List IterationOutcome) :
    strongest outcomes = (outcomes.find? fun o => 2 ≤ o.rank).getD .completed := by
  induction outcomes with
  | nil => rfl
  | cons o outcomes ih => cases o <;> simp [strongest, IterationOutcome.rank, ih]

theorem Unmixed.strongest {outcomes : List IterationOutcome} (h : Unmixed outcomes) :
    Strongest (strongest outcomes) outcomes := by
  obtain ⟨hstop, hone⟩ := h
  rw [strongest_eq]
  cases hfind : outcomes.find? fun o => 2 ≤ o.rank with
  | some o =>
    have hmem : o ∈ outcomes := mem_of_find?_eq_some hfind
    have hrank : 2 ≤ o.rank := by simpa using find?_some hfind
    refine ⟨.inl hmem, fun o' ho' => ?_⟩
    cases o with
    | abortTest reason => cases o' <;> simp [IterationOutcome.rank]
    | abortScenario =>
      cases o' with
      | abortTest reason => exact absurd ⟨hmem, reason, ho'⟩ hone
      | _ => simp [IterationOutcome.rank]
    | _ => simp [IterationOutcome.rank] at hrank
  | none =>
    have hweak : ∀ o ∈ outcomes, o.rank < 2 := by simpa using hfind
    refine ⟨.inr rfl, fun o ho => ?_⟩
    cases o with
    | stopVu =>
      obtain ⟨o', ho', hrank⟩ := hstop ho
      have := hweak o' ho'
      omega
    | completed => exact le_rfl
    | _ => exact absurd (hweak _ ho) (by simp [IterationOutcome.rank])

theorem stop_rank {o o' : IterationOutcome} (h : o.stop = o'.stop) : o = o' := by
  cases o <;> cases o' <;> simp_all [IterationOutcome.stop]

def endWith (outcome : IterationOutcome) (vu : VuContext) : Run Result := return ⟨vu, [], outcome⟩

theorem runEach_endWith (vu : VuContext) (outcomes : List IterationOutcome) :
    (runEach vu (outcomes.map endWith)).Can fun results => results.map (·.outcome) = outcomes := by
  induction outcomes with
  | nil => rfl
  | cons o outcomes ih =>
    refine can_runEach_cons (can_pure.2 (ih.mono fun results h => ?_))
    simpa using h

/-- A parallel step returns the strongest outcome of its branches, in whatever order they stand,
exactly if the outcomes are unmixed. -/
theorem parallel_strongest_iff (outcomes : List IterationOutcome) :
    (∀ (branches : List (VuContext → Run Result)) (vu : VuContext),
      (runEach vu branches).Every fun results =>
        (results.map (·.outcome)).Perm outcomes →
          ∃ o, Strongest o (results.map (·.outcome)) ∧ (joinBranches vu results).stop = o.stop) ↔
      Unmixed outcomes := by
  constructor
  · intro h
    have hall (os : List IterationOutcome) (hperm : os.Perm outcomes) :
        Strongest (strongest os) os := by
      have hcan := runEach_endWith ⟨0, [], fun _ => none, false⟩ os
      obtain ⟨results, rfl, hresults⟩ := hcan.exists_of_every (h (os.map endWith) _)
      obtain ⟨o, ho, hstop⟩ := hresults hperm
      rwa [stop_rank hstop]
    constructor
    · intro hstop
      by_contra hweak
      push Not at hweak
      have hcompleted : strongest outcomes = .completed := by
        rw [strongest_eq, find?_eq_none.2 (by simpa using hweak)]
        rfl
      have := (hall outcomes (.refl _)).2 _ hstop
      simp [hcompleted, IterationOutcome.rank] at this
    · rintro ⟨hscenario, reason, htest⟩
      -- Put the branch that aborts the scenario first.
      have hperm := perm_cons_erase hscenario
      have := (hall _ hperm.symm).2 (.abortTest reason) (hperm.mem_iff.1 htest)
      simp [strongest, IterationOutcome.rank] at this
  · intro h branches vu
    exact every_of_forall fun results hperm => ⟨_, (h.perm hperm).strongest, rfl⟩

def guarded (name : String) (action : FailureAction) : CompiledRequest :=
  ⟨name, "http", "GET", [], [⟨"status", none, action⟩], []⟩

/-- The feed of one request is exhausted; the others are answered, and their assertions fail. -/
def drained : (q : Query) → Option q.Answer
  | .prepare req => some
      ⟨if req.displayName = "signup" then .dataExhausted else .ready req.displayName,
        fun _ => none, 0, [], []⟩
  | .handled _ => some true
  | .execute _ => some {}
  | .evaluate _ _ _ => some { pass := false }
  | .elapsed => some (.fin 0)
  | .cancelled => some none
  | _ => none

/-- A virtual user whose feed is exhausted in a branch does not retire, and a test that a branch
aborts goes on if an earlier branch aborts the scenario. -/
theorem parallel_outcome_lost :
    ((runIteration { name := "shop", steps := [.request (guarded "signup" .continue)] } none
      ⟨0, [], fun _ => none, false⟩).answered drained).map (·.outcome) = some .stopVu ∧
    ((runIteration { name := "shop", steps := [.parallel [[.request (guarded "signup" .continue)],
      [.request (guarded "home" .continue)]]] } none
      ⟨0, [], fun _ => none, false⟩).answered drained).map (·.outcome) = some .completed ∧
    ((runIteration { name := "shop", steps := [.parallel [[.request (guarded "home" .abortScenario)],
      [.request (guarded "cart" .abortTest)]]] } none
      ⟨0, [], fun _ => none, false⟩).answered drained).map (·.outcome) = some .abortScenario := by
  decide

/-! ## Variables -/

theorem merge_vars (vu : VuContext) (children : List VuContext) (x : String) :
    (merge vu children).vars x = children.foldl (fun value child => (child.vars x).or value)
      (vu.vars x) := by
  simp only [merge]
  generalize vu.vars = vars
  induction children generalizing vars with
  | nil => rfl
  | cons child children ih => simp only [foldl_cons, ih]

theorem foldl_kept {value : Option Json} {children : List VuContext} {x : String}
    (h : ∀ child ∈ children, child.vars x = value) (found : Option Json) :
    children.foldl (fun value child => (child.vars x).or value) found =
      if children = [] then found else value.or found := by
  induction children generalizing found with
  | nil => rfl
  | cons child children ih =>
    rw [foldl_cons, ih fun c hc => h c (by simp [hc]), h child (by simp)]
    cases value <;> simp

/-- If one branch leaves `x` at `v` and the others leave it as it was, then the parallel step leaves
it at `v` exactly if no branch comes after that one or `x` had no other value before; a variable
that no branch changes is unchanged. -/
theorem parallel_update_kept_iff (vu : VuContext) (x : String) :
    (∀ (before after : List Result) (r : Result) (v : Json), r.vu.vars x = some v →
      (∀ other ∈ before ++ after, other.vu.vars x = vu.vars x) →
      ((joinBranches vu (before ++ r :: after)).vu.vars x = some v ↔
        after = [] ∨ vu.vars x = none ∨ vu.vars x = some v)) ∧
    ∀ results : List Result, (∀ r ∈ results, r.vu.vars x = vu.vars x) →
      (joinBranches vu results).vu.vars x = vu.vars x := by
  constructor
  · intro before after r v hr hothers
    have hafter : ∀ child ∈ after.map (·.vu), child.vars x = vu.vars x := by
      simpa using fun o ho => hothers o (by simp [ho])
    simp only [joinBranches, merge_vars, map_append, map_cons, foldl_append,
      foldl_cons, hr, Option.some_or, foldl_kept hafter, map_eq_nil_iff]
    by_cases hnil : after = []
    · simp [hnil]
    · cases vu.vars x <;> simp [hnil]
  · intro results hall
    have hchildren : ∀ child ∈ results.map (·.vu), child.vars x = vu.vars x := by
      simpa using hall
    simp only [joinBranches, merge_vars, foldl_kept hchildren]
    split
    · rfl
    · cases vu.vars x <;> rfl

theorem parallel_update_kept_iff_token :
    (joinBranches ⟨2, [], fun _ => some (.string "old"), false⟩
      [⟨⟨2, [], fun _ => some (.string "new"), false⟩, [], .completed⟩,
        ⟨⟨2, [], fun _ => some (.string "old"), false⟩, [], .completed⟩]).vu.vars "token" ≠
      some (.string "new") := by
  have h := (parallel_update_kept_iff ⟨2, [], fun _ => some (.string "old"), false⟩ "token").1 []
    [⟨⟨2, [], fun _ => some (.string "old"), false⟩, [], .completed⟩]
    ⟨⟨2, [], fun _ => some (.string "new"), false⟩, [], .completed⟩ (.string "new") rfl (by simp)
  simpa using h.not.2

/-- Every request is answered; extractors find the number of the request. -/
def numbered (token : ℚ) : (q : Query) → Option q.Answer
  | .prepare req => some ⟨.ready req.displayName, fun _ => none, 0, [], []⟩
  | .handled _ => some true
  | .execute _ => some {}
  | .extract _ _ => some (some (.number token))
  | .elapsed => some (.fin 0)
  | .cancelled => some none
  | _ => none

/-- The token that the first branch extracts is lost in the second iteration. -/
theorem parallel_update_lost :
    let login : CompiledRequest := ⟨"login", "http", "POST", [⟨"token", none⟩], [], []⟩
    let home : CompiledRequest := ⟨"home", "http", "GET", [], [], []⟩
    let program : ScenarioProgram :=
      { name := "shop", steps := [.parallel [[.request login], [.request home]]] }
    ∃ first second : Result,
      (runIteration program none ⟨0, [], fun _ => none, false⟩).answered (numbered 1) = some first ∧
      (runIteration program none first.vu).answered (numbered 2) = some second ∧
      first.vu.vars "token" = some (.number 1) ∧ second.vu.vars "token" = some (.number 1) :=
  ⟨_, _, rfl, rfl, rfl, rfl⟩

end Loadr.Flow
