import Loadr.Flow.Composition

/-!
# Ending an iteration from inside

A request whose failed check asks for `abort_iteration` returns `IterationOutcome::Completed` from
the list of steps it stands in, and every construct around that list takes it for a list that ran to
its end.  So the iteration ends there only if nothing follows in any enclosing list, no enclosing
loop has a round left, and no `exec` function is called after the steps.
-/

namespace Loadr.Flow

open Dialogue List

variable {program : ScenarioProgram}

/-! ## Traces -/

/-- A failed check asks to abort the iteration and none asks for more. -/
def abortsIteration (fired : List FailureAction) : Bool :=
  fired.contains .abortIteration && fired.all fun a => a = .continue || a = .abortIteration

mutual

def Event.aborts : Event → Bool
  | .step _ | .called _ => false
  | .checked _ fired => abortsIteration fired
  | .branches traces => branchAborts traces

def aborts : List Event → Bool
  | [] => false
  | e :: t => e.aborts || aborts t

def branchAborts : List (List Event) → Bool
  | [] => false
  | t :: ts => aborts t || branchAborts ts

end

mutual

def Event.ends : Event → Bool
  | .branches traces => branchesEnd traces
  | _ => true

/-- Nothing follows a request that aborts the iteration, other than in branches beside its own. -/
def ends : List Event → Bool
  | [] => true
  | e :: t => e.ends && (!e.aborts || t.isEmpty) && ends t

def branchesEnd : List (List Event) → Bool
  | [] => true
  | t :: ts => ends t && branchesEnd ts

end

@[simp] theorem aborts_nil : aborts [] = false := rfl

@[simp] theorem ends_nil : ends [] = true := rfl

@[simp] theorem aborts_append (t u : List Event) : aborts (t ++ u) = (aborts t || aborts u) := by
  induction t with
  | nil => simp
  | cons e t ih => simp [aborts, ih, Bool.or_assoc]

theorem ends_append (t u : List Event) :
    ends (t ++ u) = (ends t && (!aborts t || u.isEmpty) && ends u) := by
  induction t with
  | nil => simp
  | cons e t ih =>
    have hempty : (t ++ u).isEmpty = (t.isEmpty && u.isEmpty) := by cases t <;> rfl
    simp only [cons_append, ends, ih, aborts, hempty]
    generalize e.ends = a, e.aborts = b, t.isEmpty = c, u.isEmpty = d, ends t = f, ends u = g,
      aborts t = h
    revert a b c d f g h
    decide

@[simp] theorem aborts_step (s : CompiledStep) (t : List Event) :
    aborts (.step s :: t) = aborts t := by
  simp [aborts, Event.aborts]

@[simp] theorem ends_step (s : CompiledStep) (t : List Event) : ends (.step s :: t) = ends t := by
  simp [ends, Event.ends, Event.aborts]

theorem branchAborts_eq (ts : List (List Event)) : branchAborts ts = ts.any aborts := by
  induction ts with
  | nil => rfl
  | cons t ts ih => simp [branchAborts, ih]

theorem branchesEnd_eq (ts : List (List Event)) : branchesEnd ts = ts.all ends := by
  induction ts with
  | nil => rfl
  | cons t ts ih => simp [branchesEnd, ih]

@[simp] theorem aborts_branches (ts : List (List Event)) :
    aborts [.branches ts] = ts.any aborts := by
  simp [aborts, Event.aborts, branchAborts_eq]

@[simp] theorem ends_branches (ts : List (List Event)) : ends [.branches ts] = ts.all ends := by
  simp [ends, Event.ends, branchesEnd_eq]

/-- The trace ends with an abort, and it may only have one where nothing follows it. -/
def Confined (last : Bool) (t : List Event) : Prop :=
  ends t = true ∧ (aborts t = true → last = true)

variable {a b last : Bool} {t : List Event} {c : Checked} {script : Option Script}
  {s : CompiledStep} {n : ℕ} {P : Result → Prop} {branches : List (VuContext → Run Result)}
  {vu : VuContext} {body : VuContext → Run Result} {enter : ℕ → VuContext → Run (Bool × VuContext)}
  {again : VuContext → Run (Bool × VuContext)} {steps : List CompiledStep}

theorem Confined.mono (h : Confined a t) (hab : a = true → b = true) : Confined b t :=
  ⟨h.1, fun ht => hab (h.2 ht)⟩

theorem confined_nil (a : Bool) : Confined a [] := by
  simp [Confined]

theorem Confined.append {u : List Event} (ht : Confined a t) (hu : Confined b u)
    (h : a = true → u = [] ∧ b = true) : Confined b (t ++ u) := by
  simp only [Confined, ends_append, aborts_append] at *
  grind

/-- A request aborts the iteration, and something follows it or may follow the trace.  The flag is
that of the last request. -/
def Overrun (last : Bool) (t : List Event) (failed : Bool) : Prop :=
  aborts t = true ∧ (ends t = false ∨ last = false ∧ failed = true)

theorem Overrun.append {f g : Bool} {u : List Event} (h : Overrun a t f)
    (hu : ends t = true → a = false → f = true → u ≠ [] ∨ b = false ∧ g = true) :
    Overrun b (t ++ u) g := by
  obtain ⟨hab, h⟩ := h
  simp only [Overrun, ends_append, aborts_append, hab]
  grind

/-! ## Requests -/

namespace CompiledRequest

/-- A check of the request asks to abort the iteration, and none that is sure to fail asks for more:
without an engine, script conditions fail. -/
def MayAbort (script : Option Script) (req : CompiledRequest) : Prop :=
  ((∃ e ∈ req.extract, e.check = some .abortIteration) ∨
    ∃ c ∈ req.assert, c.onFailure = .abortIteration) ∧
  (script = none → ∀ c ∈ req.assert, c.js.isSome →
    c.onFailure = .continue ∨ c.onFailure = .abortIteration)

end CompiledRequest

/-- The action is at most to abort the iteration. -/
def FailureAction.Mild (a : FailureAction) : Prop := a = .continue ∨ a = .abortIteration

theorem abortsIteration_iff {fired : List FailureAction} :
    abortsIteration fired = true ↔ .abortIteration ∈ fired ∧ ∀ a ∈ fired, a.Mild := by
  simp [abortsIteration, FailureAction.Mild]

/-- As long as every failed check is mild, the flow is to abort the iteration if one asked for it. -/
def Checked.Agrees (c : Checked) : Prop :=
  (∀ a ∈ c.fired, a.Mild) →
    c.flow = if .abortIteration ∈ c.fired then .abortIteration else .continue

/-- What a run of checks has come to, if its checks ask for no other actions than those with `P`. -/
def Checked.Sound (P : FailureAction → Prop) (c : Checked) : Prop := c.Agrees ∧ ∀ a ∈ c.fired, P a

theorem Checked.Sound.fail {P : FailureAction → Prop} {action : FailureAction} (h : c.Sound P)
    (haction : P action) (reason : String) : (c.fail action reason).Sound P := by
  refine ⟨fun hmild => ?_, fun a ha => ?_⟩
  · have hc := h.1 fun a ha => hmild a (by simp [Checked.fail, ha])
    rcases hmild action (by simp [Checked.fail]) with rfl | rfl
    · simpa [Checked.fail, RequestFlow.after] using hc
    · simp [Checked.fail, RequestFlow.after]
  · rcases mem_append.1 ha with ha | ha
    · exact h.2 a ha
    · exact mem_singleton.1 ha ▸ haction

theorem runExtract_sound {P : FailureAction → Prop} (prepared : String)
    (response : ProtocolResponse) {es : List CompiledExtractor}
    (hP : ∀ e ∈ es, ∀ a, e.check = some a → P a) (hc : c.Sound P) :
    (runExtract prepared response es c).Every (·.Sound P) := by
  induction es generalizing c with
  | nil => exact hc
  | cons e es ih =>
    have hrest := fun c₁ => ih (c := c₁) fun e' he' => hP e' (mem_cons_of_mem _ he')
    simp only [runExtract, every_bind, every_ask]
    intro extracted
    split
    · exact hrest _ hc
    · split
      · exact hrest _ hc
      · rename_i action hcheck
        simp only [every_bind, every_ask]
        intro pass
        split
        · exact hrest _ hc
        · exact hrest _ (hc.fail (hP e mem_cons_self action hcheck) _)

theorem runAssert_sound {P : FailureAction → Prop} (script : Option Script) (prepared : String)
    (response : ProtocolResponse) {cs : List CompiledCondition} (hP : ∀ x ∈ cs, P x.onFailure)
    (hc : c.Sound P) : (runAssert script prepared response cs c).Every fun c' => c'.Sound P ∧
      ∀ a, (a ∈ c.fired ∨ script = none ∧ ∃ x ∈ cs, x.js.isSome ∧ x.onFailure = a) →
        a ∈ c'.fired := by
  induction cs generalizing c with
  | nil =>
    simp only [runAssert, every_pure]
    exact ⟨hc, by simp⟩
  | cons x cs ih =>
    have hrest := fun c₁ => ih (c := c₁) fun x' hx' => hP x' (mem_cons_of_mem _ hx')
    have heval : (evalCondition .assertion script x response c.vu).Every fun r =>
        script = none → x.js.isSome → r.1.pass = false := by
      unfold evalCondition
      split <;> simp_all [runScript]
    simp only [runAssert, every_bind]
    refine heval.mono fun r hr => ?_
    obtain ⟨⟨pass, group⟩, vu⟩ := r
    cases pass with
    | true =>
      refine (hrest { c with vu } hc).mono fun c' h => ⟨h.1, fun a ha => h.2 a ?_⟩
      grind
    | false =>
      refine (hrest _ (Checked.Sound.fail (c := { c with vu }) hc (hP x mem_cons_self) _)).mono
        fun c' h => ⟨h.1, fun a ha => h.2 a ?_⟩
      simp only [Checked.fail, mem_append]
      grind

theorem conclude_agrees (script : Option Script) (req : CompiledRequest) (name : String)
    (response : ProtocolResponse) (vu : VuContext) :
    (conclude script req name response vu).Every fun x =>
      abortsIteration x.2.2 = true → x.1 = .abortIteration ∧ req.MayAbort script := by
  have hstart : (Checked.mk vu .continue false []).Sound fun a =>
      (∃ e ∈ req.extract, e.check = some a) ∨ ∃ x ∈ req.assert, x.onFailure = a := by
    simp [Checked.Sound, Checked.Agrees]
  simp only [conclude, every_bind, every_emitIf, every_tell, every_pure]
  refine (runExtract_sound name response (fun e he a ha => .inl ⟨e, he, ha⟩) hstart).mono
    fun c hc => every_of_forall fun hook => ?_
  refine (runAssert_sound script name response (c := ⟨hook.2, c.flow, false, c.fired⟩)
    (fun x hx => .inr ⟨x, hx, rfl⟩) hc).mono fun c' hc' => every_of_forall fun _ hab => ?_
  obtain ⟨hmem, hmild⟩ := abortsIteration_iff.1 hab
  refine ⟨by simpa [hmem] using hc'.1.1 hmild, hc'.1.2 _ hmem, fun hs x hx hjs => ?_⟩
  exact hmild _ (hc'.2 _ (.inr ⟨hs, x, hx, hjs, rfl⟩))

theorem runRequest_agrees (script : Option Script) (req : CompiledRequest) (vu : VuContext) :
    (runRequest program script req vu).Every fun x =>
      abortsIteration x.2.2 = true → x.1 = .abortIteration ∧ req.MayAbort script := by
  simp only [runRequest, every_bind, every_tell]
  refine every_of_forall fun _ => every_of_forall fun _ => every_of_forall fun prepared => ?_
  split
  · simp [abortsIteration]
  · simp [abortsIteration]
  · rename_i name _
    simp only [every_bind, every_ask]
    refine every_of_forall fun hook handled => ?_
    split
    · simp [abortsIteration]
    · simp only [every_bind]
      exact every_of_forall fun response => conclude_agrees script req name response hook.2

theorem runExtract_can (prepared : String) (response : ProtocolResponse)
    (es : List CompiledExtractor) (c : Checked) :
    (runExtract prepared response es c).Can fun c' =>
      c'.fired = c.fired ++ (es.filterMap (·.check)).filter (· = .abortIteration) ∧
      c'.failed = (c.failed || es.any (·.check = some .abortIteration)) := by
  induction es generalizing c with
  | nil => simp [runExtract]
  | cons e es ih =>
    simp only [runExtract, can_bind, can_ask]
    refine ⟨some .null, ?_⟩
    cases hcheck : e.check with
    | none => exact (ih _).mono fun c' h => by simp [h, hcheck]
    | some action =>
      simp only [can_bind, can_ask]
      by_cases haction : action = .abortIteration
      · exact ⟨false, (ih _).mono fun c' h => by simp [h, hcheck, haction, Checked.fail]⟩
      · exact ⟨true, (ih _).mono fun c' h => by simp [h, hcheck, haction]⟩

theorem evalCondition_can (site : Site) (script : Option Script) (x : CompiledCondition)
    (response : ProtocolResponse) (vu : VuContext) (pass : Bool)
    (h : script = none → x.js.isSome → pass = false) :
    (evalCondition site script x response vu).Can fun r => r.1.pass = pass := by
  unfold evalCondition
  split
  · simp only [runScript, can_bind, can_ask, can_tell, can_pure]
    exact ⟨⟨.ok (.bool pass), vu.vars, 0, [], []⟩, by simp [Except.toOption, Json.isTruthy]⟩
  · simp_all
  · simp only [can_bind, can_ask, can_pure]
    exact ⟨⟨pass, none⟩, rfl⟩

/-- The assertion asks to abort the iteration, or it cannot pass. -/
def CompiledCondition.isSet (script : Option Script) (x : CompiledCondition) : Bool :=
  x.onFailure = .abortIteration || script.isNone && x.js.isSome

theorem runAssert_can (script : Option Script) (prepared : String) (response : ProtocolResponse)
    (cs : List CompiledCondition) (c : Checked) :
    (runAssert script prepared response cs c).Can fun c' =>
      c'.fired = c.fired ++ (cs.filter (·.isSet script)).map (·.onFailure) ∧
      c'.failed = (c.failed || cs.any (·.isSet script)) := by
  induction cs generalizing c with
  | nil => simp [runAssert]
  | cons x cs ih =>
    have heval := evalCondition_can .assertion script x response c.vu (!x.isSet script)
      fun hs hjs => by simp [CompiledCondition.isSet, hs, hjs]
    simp only [runAssert, can_bind]
    refine heval.mono fun r hr => ?_
    obtain ⟨⟨pass, group⟩, vu⟩ := r
    obtain rfl : pass = !x.isSet script := hr
    cases hset : x.isSet script with
    | true => exact (ih _).mono fun c' h => by simp [h, hset, Checked.fail]
    | false => exact (ih _).mono fun c' h => by simp [h, hset]

theorem callHook_can (site : Site) (script : Option Script) (function : String) (vu : VuContext) :
    (callHook site script function vu).Can fun _ => True := by
  unfold callHook
  split
  · split
    · simp only [runScript, can_bind, can_ask, can_tell, can_pure]
      exact ⟨⟨.error "", vu.vars, 0, [], []⟩, trivial⟩
    · trivial
  · trivial

theorem runChecks_can (script : Option Script) (response : ProtocolResponse)
    (cs : List CompiledCondition) (vu : VuContext) :
    (runChecks script response cs vu).Can fun _ => True := by
  induction cs generalizing vu with
  | nil => trivial
  | cons x cs ih =>
    simp only [runChecks, can_bind, can_tell]
    exact (evalCondition_can .check script x response vu false (by simp)).mono fun r _ => ih r.2

theorem prepare_can (script : Option Script) (req : CompiledRequest) (vu : VuContext)
    (preparation : Preparation) : (prepare script req vu).Can fun r => r.1 = preparation := by
  simp only [prepare, can_bind, can_ask, can_tell, can_pure]
  exact ⟨⟨preparation, vu.vars, 0, [], []⟩, rfl⟩

theorem acquire_can (vu : VuContext) : (acquire program vu).Can fun _ => True := by
  unfold acquire
  split
  · exact ⟨(0 : ℕ), trivial⟩
  · trivial

theorem injectLatency_can (vu : VuContext) : (injectLatency program vu).Can fun _ => True := by
  unfold injectLatency
  split
  · exact ⟨⟨0, fun _ => rfl⟩, trivial⟩
  · trivial

theorem send_can (req : CompiledRequest) (prepared : PreparedRequest) (vu : VuContext) :
    (send program req prepared vu).Can fun _ => True := by
  have hdrop : (dropFault program).Can fun _ => True := by
    unfold dropFault faultDropDecision
    split
    · simp only [can_bind, can_pure]
      split
      · exact ⟨⟨0, by decide, by decide⟩, trivial⟩
      · trivial
    · trivial
  simp only [send, can_bind, can_tell, can_pure]
  refine hdrop.mono fun dropped _ => ?_
  cases dropped with
  | none => exact ⟨{}, trivial⟩
  | some mode =>
    cases mode with
    | beforeSend => trivial
    | afterResponse => exact ⟨{}, trivial⟩

theorem conclude_can {req : CompiledRequest} (h : req.MayAbort script) (name : String)
    (response : ProtocolResponse) (vu : VuContext) :
    (conclude script req name response vu).Can fun x =>
      abortsIteration x.2.2 = true ∧ x.2.1.lastRequestFailed = true := by
  simp only [conclude, can_bind, can_emitIf, can_tell, can_pure]
  refine (runExtract_can _ _ req.extract _).mono fun c hc => ?_
  refine (callHook_can _ _ _ _).mono fun vu₂ _ => ?_
  refine (runAssert_can script _ _ req.assert _).mono fun c' hc' => ?_
  refine (runChecks_can _ _ _ _).mono fun vu₃ _ => ?_
  obtain ⟨hfired, hfailed⟩ := hc
  obtain ⟨hfired', hfailed'⟩ := hc'
  have hcheck : (∃ e ∈ req.extract, e.check = some .abortIteration) ∨
      ∃ x ∈ req.assert, x.isSet script = true ∧ x.onFailure = .abortIteration := by
    refine h.1.imp_right ?_
    rintro ⟨x, hx, ha⟩
    exact ⟨x, hx, by simp [CompiledCondition.isSet, ha], ha⟩
  rw [abortsIteration_iff, hfired', hfired, hfailed', hfailed]
  refine ⟨⟨by simpa [and_assoc] using hcheck, fun a ha => ?_⟩, ?_⟩
  · rcases mem_append.1 ha with ha | ha
    · exact .inr (of_decide_eq_true (mem_filter.1 ha).2)
    · obtain ⟨x, hx, rfl⟩ := mem_map.1 ha
      obtain ⟨hx, hset⟩ := mem_filter.1 hx
      simp only [CompiledCondition.isSet, Bool.or_eq_true, decide_eq_true_eq, Bool.and_eq_true,
        Option.isNone_iff_eq_none] at hset
      exact hset.elim .inr fun hs => h.2 hs.1 x hx hs.2
  · simp only [Bool.or_eq_true, any_eq_true, decide_eq_true_eq]
    rcases hcheck with hcheck | ⟨x, hx, hset, -⟩
    · exact .inr (.inr hcheck)
    · exact .inl (.inr (.inr ⟨x, hx, hset⟩))

theorem runRequest_can {req : CompiledRequest} (h : req.MayAbort script) (vu : VuContext) :
    (runRequest program script req vu).Can fun x =>
      abortsIteration x.2.2 = true ∧ x.2.1.lastRequestFailed = true := by
  simp only [runRequest, can_bind, can_tell]
  refine (acquire_can vu).mono fun _ _ => (injectLatency_can vu).mono fun _ _ => ?_
  refine (prepare_can script req vu (.ready "")).mono fun prepared hprepared => ?_
  simp only [hprepared, can_bind, can_ask]
  refine (callHook_can _ _ _ _).mono fun hook _ => ⟨true, ?_⟩
  simp only [can_bind]
  exact (send_can _ _ _).mono fun response _ => conclude_can h _ response _

/-! ## Places where something follows -/

/-- The step `s` can run the steps `body`, for up to `n` rounds. -/
inductive Opens (script : Option Script) : CompiledStep → ℕ → List CompiledStep → Prop
  | group (name : String) (steps : List CompiledStep) : Opens script (.group name steps) 1 steps
  | repeatStep {times : ℕ} (h : 0 < times) (counter : Option String) (steps : List CompiledStep) :
      Opens script (.repeatStep times counter steps) times steps
  | whileStep {n : ℕ} (hs : script ≠ none) (h : 0 < n) (condition : String)
      (steps : List CompiledStep) : Opens script (.whileStep condition n steps) n steps
  | then_ (hs : script ≠ none) (condition : String) (steps otherwise : List CompiledStep) :
      Opens script (.ifStep condition steps otherwise) 1 steps
  | otherwise (condition : String) (then_ steps : List CompiledStep) :
      Opens script (.ifStep condition then_ steps) 1 steps
  | choice {strategy : SwitchStrategy} {choices : List (CompiledChoice CompiledStep)} {i : ℕ}
      {choice : CompiledChoice CompiledStep} (h : (pickBranch strategy choices).Can (· = i))
      (hi : choices[i]? = some choice) : Opens script (.random strategy choices) 1 choice.steps
  | foreach {items : Json} {list : List Json} {vu : VuContext}
      (h : (resolveItems script items vu).Can (·.1 = list)) (hne : list ≠ []) (var index : String)
      (steps : List CompiledStep) : Opens script (.foreach items var index steps) list.length steps
  | case (value : String) (cases : List (String × List CompiledStep))
      (default : List CompiledStep) (key : String) :
      Opens script (.switch value cases default) 1 (findCase cases default key)
  | during {duration n : ℕ} (h : duration ≠ 0) (hn : 0 < n) (counter : String)
      (steps : List CompiledStep) : Opens script (.during duration counter steps) n steps
  | retry (times : ℕ) (until_ : Option String) (backoff : Option ℕ) (steps : List CompiledStep) :
      Opens script (.retry times until_ backoff steps) (max times 1) steps

/-- A request that may abort the iteration stands where something can follow: `last` says that
nothing follows the list. -/
inductive Exposed : Option Script → Bool → List CompiledStep → Prop
  | request {script : Option Script} {req : CompiledRequest} (h : req.MayAbort script)
      (rest : List CompiledStep) : Exposed script false (.request req :: rest)
  | later {script : Option Script} {last : Bool} {rest : List CompiledStep}
      (h : Exposed script last rest) (s : CompiledStep) : Exposed script last (s :: rest)
  | within {script : Option Script} {last : Bool} {s : CompiledStep} {n : ℕ}
      {body rest : List CompiledStep} (ho : Opens script s n body)
      (h : Exposed script (last && rest.isEmpty && decide (n ≤ 1)) body) :
      Exposed script last (s :: rest)
  | branch {script : Option Script} {last : Bool} {branches : List (List CompiledStep)}
      {body rest : List CompiledStep} (hb : body ∈ branches)
      (h : Exposed none (last && rest.isEmpty) body) :
      Exposed script last (.parallel branches :: rest)

theorem Opens.sizeOf_lt {body : List CompiledStep} (h : Opens script s n body) :
    sizeOf body < sizeOf s := by
  cases h with
  | choice _ hi =>
    have hmem := sizeOf_lt_of_mem (mem_of_getElem? hi)
    rename_i choice _
    have hsteps : sizeOf choice.steps < sizeOf choice := by
      cases choice
      simp
    simp
    omega
  | case value cases default key =>
    rcases findCase_mem cases default key with h | ⟨c, hc, h⟩
    · simp [h]
    · have hmem := sizeOf_lt_of_mem hc
      have hsteps : sizeOf c.2 < sizeOf c := by
        cases c
        simp
      rw [h] at hsteps
      simp
      omega
  | _ => simp <;> omega

theorem sizeOf_branch_lt {branches : List (List CompiledStep)} {b : List CompiledStep}
    (h : b ∈ branches) : sizeOf b < sizeOf (CompiledStep.parallel branches) := by
  have hmem := sizeOf_lt_of_mem h
  simp
  omega

/-! ## Bodies and branches -/

theorem runEach_every (h : ∀ b ∈ branches, ∀ vu, (b vu).Every P) :
    (runEach vu branches).Every fun rs => ∀ r ∈ rs, P r := by
  induction branches with
  | nil => simp [runEach, runAll]
  | cons b branches ih =>
    refine every_runEach_cons ((h b (by simp) _).mono fun r hr => ?_)
    refine (ih fun b' hb' => h b' (by simp [hb'])).mono fun rs hrs => ?_
    simpa using ⟨hr, hrs⟩

theorem runEach_can (h : ∀ b ∈ branches, ∀ vu, (b vu).Can P) :
    (runEach vu branches).Can fun rs => ∀ r ∈ rs, P r := by
  induction branches with
  | nil => simp [runEach, runAll]
  | cons b branches ih =>
    refine can_runEach_cons ((h b (by simp) _).mono fun r hr => ?_)
    refine (ih fun b' hb' => h b' (by simp [hb'])).mono fun rs hrs => ?_
    simpa using ⟨hr, hrs⟩

theorem runEach_can_one {R : Result → Prop} {b : VuContext → Run Result} (hb : b ∈ branches)
    (h : ∀ b ∈ branches, ∀ vu, (b vu).Can P) (hR : ∀ vu, (b vu).Can fun r => P r ∧ R r) :
    (runEach vu branches).Can fun rs => (∀ r ∈ rs, P r) ∧ ∃ r ∈ rs, R r := by
  induction branches with
  | nil => simp at hb
  | cons b' branches ih =>
    have hrest := fun b hb => h b (mem_cons_of_mem b' hb)
    refine can_runEach_cons ?_
    rcases mem_cons.1 hb with rfl | hb
    · refine (hR _).mono fun r hr => (runEach_can hrest).mono fun rs hrs => ?_
      exact ⟨by simpa using ⟨hr.1, hrs⟩, r, by simp, hr.2⟩
    · refine (h b' (by simp) _).mono fun r hr => (ih hb hrest).mono fun rs hrs => ?_
      obtain ⟨hall, r', hr', hR'⟩ := hrs
      exact ⟨by simpa using ⟨hr, hall⟩, r', by simp [hr'], hR'⟩

/-! ## A flow that ends where it is aborted -/

theorem rounds_confined (hbody : ∀ vu, (body vu).Every fun r => Confined a r.trace)
    (hn : a = true → n ≤ 1) (i : ℕ) (vu : VuContext) :
    (rounds body enter again n i vu).Every fun r => Confined a r.trace := by
  induction n generalizing i vu with
  | zero => exact confined_nil a
  | succ n ih =>
    simp only [rounds, every_bind]
    refine every_of_forall fun entered => ?_
    split
    · simp only [every_bind]
      refine (hbody _).mono fun r hr => ?_
      split
      · exact hr
      · simp only [every_bind]
        refine every_of_forall fun more => ?_
        split
        · simp only [every_bind, every_pure]
          -- A round after this one exists only if the body may not abort.
          by_cases ha : a = true
          · obtain rfl : n = 0 := by have := hn ha; omega
            simpa [rounds] using hr
          · refine (ih (fun h => absurd h ha) _ _).mono fun rest hrest => ?_
            exact hr.append hrest fun h => absurd h ha
        · exact hr
    · exact confined_nil a

theorem runStep_confined (hreq : ∀ req, s ≠ .request req)
    (hbody : ∀ n body, Opens script s n body → ∀ vu, (runSteps program script body vu).Every fun r =>
      Confined (a && decide (n ≤ 1)) r.trace)
    (hbranch : ∀ branches, s = .parallel branches → ∀ b ∈ branches, ∀ vu,
      (runSteps program none b vu).Every fun r => Confined a r.trace) (vu : VuContext) :
    (runStep program script s vu).Every fun r => Confined a r.trace := by
  -- A single run of a body, and a number of rounds of it.
  have hone {body : List CompiledStep} (ho : Opens script s 1 body) (vu : VuContext) :
      (runSteps program script body vu).Every fun r => Confined a r.trace :=
    (hbody 1 body ho vu).mono fun r hr => hr.mono (by simp)
  have hmany {n : ℕ} {body : List CompiledStep} {enter : ℕ → VuContext → Run (Bool × VuContext)}
      {again : VuContext → Run (Bool × VuContext)} (ho : 0 < n → Opens script s n body)
      (vu : VuContext) : (rounds (runSteps program script body) enter again n 0 vu).Every fun r =>
        Confined a r.trace := by
    rcases Nat.eq_zero_or_pos n with rfl | hn
    · exact confined_nil a
    · exact (rounds_confined (hbody n body (ho hn)) (by simp) 0 vu).mono fun r hr =>
        hr.mono (by simp +contextual)
  cases s with simp only [runStep]
  | request req => cases hreq req rfl
  | thinkTime | rendezvous => simpa using confined_nil a
  | js call code =>
    split
    all_goals
      simp only [every_bind, every_pure]
      first
      | exact every_of_forall fun _ => confined_nil a
      | exact confined_nil a
  | group name steps =>
    simp only [inGroup, every_bind, every_relay, every_pure]
    exact (hone (.group name steps) _).mono fun r hr => hr
  | repeatStep times counter steps =>
    exact hmany (fun h => .repeatStep h counter steps) vu
  | whileStep condition n steps =>
    cases script with
    | none =>
      cases n with
      | zero => exact confined_nil a
      | succ n => simpa [rounds, evalConditionBool] using confined_nil a
    | some engine => exact hmany (fun h => .whileStep (by simp) h condition steps) vu
  | ifStep condition then_ otherwise =>
    simp only [every_bind]
    have heval : (evalConditionBool script condition vu).Every fun r =>
        r.1 = true → script ≠ none := by
      unfold evalConditionBool
      split
      · exact every_of_forall fun _ _ => by simp
      · simp
    refine heval.mono fun r hr => ?_
    split
    · rename_i h
      simp only [once, every_bind, every_pure]
      exact (hone (.then_ (hr h) condition then_ otherwise) _).mono fun r hr => hr
    · simp only [once, every_bind, every_pure]
      exact (hone (.otherwise condition then_ otherwise) _).mono fun r hr => hr
  | random strategy choices =>
    split
    · exact confined_nil a
    · simp only [every_bind]
      refine (every_can _).mono fun i hi => ?_
      simp only [runChoices_eq, getElem?_map]
      cases hc : choices[i]? with
      | none => exact confined_nil a
      | some c =>
        simp only [Option.map_some, inGroup, every_bind, every_relay, every_pure]
        exact (hone (.choice hi hc) _).mono fun r hr => hr
  | foreach items var index steps =>
    simp only [every_bind]
    refine (every_can _).mono fun x hx => ?_
    refine hmany (fun h => .foreach (hx.mono fun y hy => by rw [hy]) ?_ var index steps) _
    exact ne_nil_of_length_pos h
  | switch value cases default =>
    simp only [every_bind, findCase_runCases, once, every_pure]
    refine every_of_forall fun rendered => ?_
    exact (hone (.case value cases default _) _).mono fun r hr => hr
  | during duration counter steps =>
    simp only [every_bind, every_ask]
    intro n
    refine hmany (fun h => .during (fun hd => ?_) h counter steps) vu
    have := n.2 hd
    omega
  | retry times until_ backoff steps =>
    exact hmany (fun _ => .retry times until_ backoff steps) vu
  | parallel branches =>
    simp only [runParallel, joinBranches, every_bind, every_pure, runBranches_eq]
    refine (runEach_every (by simpa using hbranch branches rfl)).mono fun rs hrs => ?_
    simp only [Confined, ends_branches, aborts_branches, all_map, all_eq_true, any_map, any_eq_true]
    refine ⟨fun r hr => (hrs r hr).1, ?_⟩
    rintro ⟨r, hr, h⟩
    exact (hrs r hr).2 h

theorem runSteps_confined {script : Option Script} {last : Bool} (steps : List CompiledStep)
    (h : ¬ Exposed script last steps) (vu : VuContext) :
    (runSteps program script steps vu).Every fun r =>
      Confined last r.trace ∧ (steps = [] → r.trace = []) := by
  match steps, h with
  | [], _ => simpa [runSteps] using confined_nil last
  | s :: rest, h =>
    -- A step that aborts the iteration either returns or has nothing after it.
    have hstep : (runStep program script s vu).Every fun x => ends x.trace = true ∧
        (aborts x.trace = true → last = true ∧ (x.stop = none → rest = [])) := by
      by_cases hreq : ∃ req, s = .request req
      · obtain ⟨req, rfl⟩ := hreq
        simp only [runStep, every_bind, every_pauseIf, every_pure]
        refine (runRequest_agrees script req vu).mono fun x hx =>
          ⟨by simp [ends, Event.ends], fun hab => ?_⟩
        obtain ⟨hflow, hmay⟩ := hx (by simpa [aborts, Event.aborts] using hab)
        refine ⟨?_, by simp [hflow, RequestFlow.stop]⟩
        by_contra hlast
        rw [Bool.not_eq_true] at hlast
        subst hlast
        exact h (.request hmay rest)
      · have hbody (n : ℕ) (body : List CompiledStep) (ho : Opens script s n body)
            (vu : VuContext) : (runSteps program script body vu).Every fun r =>
              Confined (last && rest.isEmpty && decide (n ≤ 1)) r.trace := by
          have hlt := ho.sizeOf_lt
          exact (runSteps_confined body (fun hex => h (.within ho hex)) vu).mono fun r hr => hr.1
        have hbranch (branches : List (List CompiledStep)) (hs : s = .parallel branches)
            (b : List CompiledStep) (hb : b ∈ branches) (vu : VuContext) :
            (runSteps program none b vu).Every fun r => Confined (last && rest.isEmpty) r.trace := by
          have hlt : sizeOf b < sizeOf s := hs ▸ sizeOf_branch_lt hb
          have hb' : ¬ Exposed none (last && rest.isEmpty) b := fun hex => h (hs ▸ .branch hb hex)
          exact (runSteps_confined b hb' vu).mono fun r hr => hr.1
        have hconf := runStep_confined (fun req hs => hreq ⟨req, hs⟩) hbody hbranch vu
        refine hconf.mono fun x hx => ⟨hx.1, fun hab => ?_⟩
        have hlast := hx.2 hab
        simp only [Bool.and_eq_true, List.isEmpty_iff] at hlast
        exact ⟨hlast.1, fun _ => hlast.2⟩
    simp only [runSteps, every_bind]
    refine hstep.mono fun x hx => ?_
    split
    · simpa [Confined] using ⟨hx.1, fun hab => (hx.2 hab).1⟩
    · rename_i hstop
      simp only [every_bind, every_pure]
      refine (runSteps_confined rest (fun hex => h (.later hex s)) x.vu).mono fun r hr => ?_
      have hx' : Confined (last && rest.isEmpty) (.step s :: x.trace) := by
        simp only [Confined, ends_step, aborts_step, Bool.and_eq_true, List.isEmpty_iff]
        exact ⟨hx.1, fun hab => ⟨(hx.2 hab).1, (hx.2 hab).2 hstop⟩⟩
      refine ⟨hx'.append hr.1 fun hlast => ?_, by simp⟩
      simp only [Bool.and_eq_true, List.isEmpty_iff] at hlast
      exact ⟨hr.2 hlast.2, hlast.1⟩
termination_by sizeOf steps
decreasing_by all_goals simp <;> omega

/-! ## A flow that goes on -/

theorem rounds_can {q : Prop} (henter : ∀ i vu, (enter i vu).Can fun r => q → r.1 = true)
    (hbody : ∀ vu, (body vu).Can fun r => (q → r.trace ≠ []) ∧ r.outcome = .completed)
    (hagain : ∀ vu, (again vu).Can fun _ => True) (n i : ℕ) (vu : VuContext) :
    (rounds body enter again n i vu).Can fun x => x.stop = none ∧ (q → 0 < n → x.trace ≠ []) := by
  induction n generalizing i vu with
  | zero => exact ⟨rfl, fun _ h => absurd h (Nat.lt_irrefl 0)⟩
  | succ n ih =>
    simp only [rounds, can_bind]
    refine (henter i vu).mono fun entered hentered => ?_
    split
    · simp only [can_bind]
      refine (hbody _).mono fun r hr => ?_
      simp only [hr.2, IterationOutcome.stop, can_bind]
      refine (hagain _).mono fun more _ => ?_
      split
      · simp only [can_bind, can_pure]
        exact (ih _ _).mono fun x hx => ⟨hx.1, fun hq _ => by simp [hr.1 hq]⟩
      · exact ⟨rfl, fun hq _ => hr.1 hq⟩
    · exact ⟨rfl, fun hq _ => absurd (hentered hq) ‹_›⟩

theorem evalConditionBool_can (hs : script ≠ none) (expr : String) (vu : VuContext) (holds : Bool) :
    (evalConditionBool script expr vu).Can fun r =>
      r.1 = holds ∧ r.2.lastRequestFailed = vu.lastRequestFailed := by
  cases script with
  | none => cases hs rfl
  | some engine =>
    simp only [evalConditionBool, runScript, can_bind, can_ask, can_tell, can_pure]
    exact ⟨⟨.ok (.bool holds), vu.vars, 0, [], []⟩,
      by simp [Except.toOption, Json.isTruthy, VuContext.affected]⟩

theorem evalConditionBool_false (script : Option Script) (expr : String) (vu : VuContext) :
    (evalConditionBool script expr vu).Can fun r =>
      r.1 = false ∧ r.2.lastRequestFailed = vu.lastRequestFailed := by
  cases script with
  | none => simp [evalConditionBool]
  | some engine => exact evalConditionBool_can (by simp) expr vu false

theorem walk_lt (last : ℕ) (pick : F64) (i : ℕ) (weights : List F64)
    (h : i + weights.length ≤ last + 1) : walk last pick i weights ≤ last := by
  induction weights generalizing pick i with
  | nil => simp [walk]
  | cons w ws ih =>
    simp only [walk, length_cons] at h ⊢
    split
    · omega
    · exact ih _ _ (by omega)

/-- A total of weights cut off at zero is infinite or a number that is not negative. -/
theorem sum_max_zero (weights : List F64) :
    (weights.map fun w => F64.max w 0).sum = .posInf ∨
      ∃ q : ℚ, 0 ≤ q ∧ (weights.map fun w => F64.max w 0).sum = .fin q := by
  have hmax (w : F64) : F64.max w 0 = .posInf ∨ ∃ q : ℚ, 0 ≤ q ∧ F64.max w 0 = .fin q := by
    cases w with
    | fin q => exact .inr ⟨max q 0, le_max_right q 0, rfl⟩
    | posInf => exact .inl rfl
    | _ => exact .inr ⟨0, le_rfl, rfl⟩
  induction weights with
  | nil => exact .inr ⟨0, le_rfl, rfl⟩
  | cons w weights ih =>
    rw [map_cons, sum_cons]
    rcases hmax w with hw | ⟨p, hp, hw⟩ <;> rcases ih with hs | ⟨q, hq, hs⟩ <;> rw [hw, hs]
    · exact .inl rfl
    · exact .inl rfl
    · exact .inl rfl
    · exact .inr ⟨p + q, add_nonneg hp hq, rfl⟩

theorem le_zero_or_lt (weights : List F64) :
    F64.le (weights.map fun w => F64.max w 0).sum 0 = true ∨
      F64.lt 0 (weights.map fun w => F64.max w 0).sum = true := by
  rcases sum_max_zero weights with h | ⟨q, hq, h⟩ <;> rw [h]
  · exact .inr rfl
  · rcases hq.eq_or_lt with rfl | hq
    · exact .inl rfl
    · exact .inr (by simpa [F64.zero_def, F64.lt] using hq)

theorem pickBranch_can (strategy : SwitchStrategy) {choices : List (CompiledChoice CompiledStep)}
    (h : choices ≠ []) : (pickBranch strategy choices).Can fun i => i < choices.length := by
  have hpos : 0 < choices.length := length_pos_of_ne_nil h
  cases strategy with
  | roundRobin => exact ⟨(0 : ℕ), Nat.mod_lt _ hpos⟩
  | uniform => exact ⟨(⟨0, hpos⟩ : Fin choices.length), hpos⟩
  | weighted =>
    simp only [pickBranch]
    split
    · exact ⟨(⟨0, hpos⟩ : Fin choices.length), hpos⟩
    · rename_i htotal
      have hlt := (le_zero_or_lt (choices.map (·.weight))).resolve_left
        (by simpa [Function.comp_def] using htotal)
      refine ⟨⟨0, by decide, by simpa [Function.comp_def] using hlt⟩, ?_⟩
      have := walk_lt (choices.length - 1) 0 0 (choices.map fun c => F64.max c.weight 0)
        (by simp; omega)
      exact Nat.lt_of_le_of_lt this (by omega)

theorem strongest_completed {outcomes : List IterationOutcome}
    (h : ∀ o ∈ outcomes, o = .completed) : strongest outcomes = .completed := by
  induction outcomes with
  | nil => rfl
  | cons o outcomes ih =>
    rw [h o (by simp)]
    exact ih fun o' ho' => h o' (by simp [ho'])

theorem logic_can : Logic (fun _ => True) fun _ _ _ d => d.Can fun _ => True where
  pure _ _ := trivial
  bind hd hf := can_bind.2 (hd.mono fun a _ => hf a trivial)
  pause _ := trivial
  feed _ _ := trivial
  exception _ _ _ := trivial
  reset _ _ := trivial
  script _ _ _ _ := ⟨⟨.ok .null, fun _ => none, 0, [], []⟩, trivial⟩
  render _ _ _ := ⟨⟨none, fun _ => none, 0, [], []⟩, trivial⟩
  items _ _ _ := ⟨⟨none, fun _ => none, 0, [], []⟩, trivial⟩

theorem runStep_can_complete
    (hbody : ∀ body ∈ s.bodies, ∀ script vu,
      (runSteps program script body vu).Can fun r => r.outcome = .completed)
    (script : Option Script) (vu : VuContext) :
    (runStep program script s vu).Can fun x => x.stop = none := by
  refine step_rule (T := fun _ d => d.Can fun x : StepResult => x.stop = none) logic_can
    (fun hd hf => can_bind.2 (hd.mono fun a _ => hf a trivial)) (fun _ _ => trivial) (fun _ => rfl)
    (fun strategy _ hne _ => (pickBranch_can strategy hne).mono fun _ _ => trivial)
    (fun _ _ => ⟨⟨0, fun _ => rfl⟩, trivial⟩) ?_ ?_ ?_ ?_ ?_ trivial
  · rintro req rfl
    simp only [runStep, runRequest, can_bind, can_tell]
    refine (acquire_can vu).mono fun _ _ => (injectLatency_can vu).mono fun _ _ => ?_
    refine (prepare_can script req vu .other).mono fun prepared hprepared => ?_
    simp [hprepared, RequestFlow.stop]
  · intro body hb vu _
    exact can_bind.2 ((hbody body hb script vu).mono fun r hr => stop_eq_none.2 hr)
  · intro body hb name vu _
    simp only [inGroup, can_bind, can_relay, can_pure]
    exact (hbody body hb script _).mono fun r hr => stop_eq_none.2 hr
  · intro body hb enter again n vu henter hagain _
    exact (rounds_can (q := False) (fun i vu => (henter i vu trivial).mono fun _ _ => False.elim)
      (fun vu => (hbody body hb script vu).mono fun _ h => ⟨False.elim, h⟩)
      (fun vu => hagain vu trivial) n 0 vu).mono fun _ h => h.1
  · rintro branches rfl
    simp only [runParallel, joinBranches, can_bind, can_pure]
    have hall : ∀ b ∈ branches, ∀ vu, (runSteps program none b vu).Can fun r =>
        r.outcome = .completed := fun b hb => hbody b hb none
    refine (runEach_can (by simpa using hall)).mono fun rs hrs => ?_
    exact stop_eq_none.2 (strongest_completed (by simpa using hrs))

theorem runSteps_can_complete (script : Option Script) (steps : List CompiledStep)
    (vu : VuContext) : (runSteps program script steps vu).Can fun r => r.outcome = .completed := by
  induction steps using steps_induction generalizing script vu with
  | nil => simp [runSteps]
  | cons s rest hbody hrest =>
    simp only [runSteps, can_bind]
    refine (runStep_can_complete hbody script vu).mono fun x hx => ?_
    simpa [hx] using hrest script x.vu

theorem runSteps_trace (h : steps ≠ []) (script : Option Script) (vu : VuContext) :
    (runSteps program script steps vu).Every fun r => r.trace ≠ [] := by
  cases steps with
  | nil => cases h rfl
  | cons s rest =>
    simp only [runSteps, every_bind]
    refine every_of_forall fun x => ?_
    split
    · simp
    · simp only [every_bind, every_pure]
      exact every_of_forall fun _ => by simp

theorem rounds_overrun (hn : 0 < n) (henter : ∀ i vu, (enter i vu).Can fun r => r.1 = true)
    (hbody : ∀ vu, (body vu).Can fun r => r.outcome = .completed ∧
      Overrun (a && decide (n ≤ 1)) r.trace r.vu.lastRequestFailed)
    (hnext : ∀ vu, (body vu).Can fun r => r.trace ≠ [] ∧ r.outcome = .completed)
    (hagain : ∀ vu, (again vu).Can fun r => r.2.lastRequestFailed = vu.lastRequestFailed ∧
      (vu.lastRequestFailed = true → r.1 = true)) (vu : VuContext) :
    (rounds body enter again n 0 vu).Can fun x =>
      x.stop = none ∧ Overrun a x.trace x.vu.lastRequestFailed := by
  obtain ⟨n, rfl⟩ : ∃ m, n = m + 1 := ⟨n - 1, by omega⟩
  simp only [rounds, can_bind]
  refine (henter 0 vu).mono fun entered hentered => ?_
  simp only [hentered, if_true, can_bind]
  refine (hbody _).mono fun r hr => ?_
  obtain ⟨hout, hover⟩ := hr
  simp only [hout, IterationOutcome.stop, can_bind]
  refine (hagain r.vu).mono fun more hmore => ?_
  by_cases hm : more.1 = true
  · simp only [hm, if_true, can_bind, can_pure]
    cases n with
    | zero =>
      simp only [rounds, can_pure, append_nil, true_and]
      simpa [hmore.1] using hover
    | succ n =>
      -- The next round runs, and its trace is not empty.
      refine (rounds_can (q := True) (fun i vu => (henter i vu).mono fun _ h _ => h)
        (fun vu => (hnext vu).mono fun _ h => ⟨fun _ => h.1, h.2⟩)
        (fun vu => (hagain vu).mono fun _ _ => trivial) _ (0 + 1) more.2).mono fun x hx => ?_
      exact ⟨hx.1, hover.append fun _ _ _ => .inl (hx.2 trivial n.succ_pos)⟩
  · simp only [hm, can_pure, Bool.false_eq_true, if_false, true_and]
    have hfailed : r.vu.lastRequestFailed ≠ true := fun h => hm (hmore.2 h)
    exact ⟨hover.1, .inl (hover.2.resolve_right fun h => hfailed h.2)⟩

theorem resolveItems_can {items : Json} {list : List Json}
    (h : (resolveItems script items vu).Can (·.1 = list)) (vu' : VuContext) :
    (resolveItems script items vu').Can (·.1 = list) := by
  cases items with
  | string s =>
    simp only [resolveItems, can_bind, can_ask, can_pure] at h ⊢
    exact h
  | _ => exact h

theorem runStep_overrun {body : List CompiledStep} (ho : Opens script s n body) (hne : body ≠ [])
    (hbody : ∀ vu, (runSteps program script body vu).Can fun r => r.outcome = .completed ∧
      Overrun (a && decide (n ≤ 1)) r.trace r.vu.lastRequestFailed) (vu : VuContext) :
    (runStep program script s vu).Can fun x =>
      x.stop = none ∧ Overrun a x.trace x.vu.lastRequestFailed := by
  have hnext (vu : VuContext) : (runSteps program script body vu).Can fun r =>
      r.trace ≠ [] ∧ r.outcome = .completed :=
    (runSteps_trace hne script vu).can_and (runSteps_can_complete script body vu)
  have halways (vu : VuContext) : (always vu).Can fun r => r.1 = true := rfl
  have hon (vu : VuContext) : (always vu).Can fun r =>
      r.2.lastRequestFailed = vu.lastRequestFailed ∧ (vu.lastRequestFailed = true → r.1 = true) :=
    ⟨rfl, fun _ => rfl⟩
  have hone {x : Result} (hx : x.outcome = .completed ∧
      Overrun (a && decide (1 ≤ 1)) x.trace x.vu.lastRequestFailed) : x.outcome.stop = none ∧
        Overrun a x.trace x.vu.lastRequestFailed :=
    ⟨stop_eq_none.2 hx.1, by simpa using hx.2⟩
  cases ho with simp only [runStep]
  | group name =>
    simp only [inGroup, can_bind, can_relay, can_pure]
    exact (hbody _).mono fun r hr => hone hr
  | repeatStep h counter =>
    exact rounds_overrun h (fun _ _ => halways _) hbody hnext hon vu
  | whileStep hs h condition =>
    exact rounds_overrun h
      (fun _ vu => (evalConditionBool_can hs condition vu true).mono fun _ h => h.1)
      hbody hnext hon vu
  | then_ hs condition =>
    simp only [can_bind]
    refine (evalConditionBool_can hs condition vu true).mono fun r hr => ?_
    simp only [hr.1, if_true, once, can_bind, can_pure]
    exact (hbody _).mono fun r hr => hone hr
  | otherwise condition =>
    simp only [can_bind]
    refine (evalConditionBool_false script condition vu).mono fun r hr => ?_
    simp only [hr.1, Bool.false_eq_true, if_false, once, can_bind, can_pure]
    exact (hbody _).mono fun r hr => hone hr
  | choice h hi =>
    have hchoices := ne_nil_of_mem (mem_of_getElem? hi)
    simp only [List.isEmpty_iff, hchoices, if_false, can_bind]
    refine h.mono fun i hi' => ?_
    subst hi'
    simp only [runChoices_eq, getElem?_map, hi, Option.map_some, inGroup, can_bind,
      can_relay, can_pure]
    exact (hbody _).mono fun r hr => hone hr
  | foreach h hlist var index =>
    simp only [can_bind]
    refine (resolveItems_can h vu).mono fun x hx => ?_
    subst hx
    exact rounds_overrun (length_pos_of_ne_nil hlist) (fun _ _ => halways _) hbody hnext hon _
  | case value cases default key =>
    simp only [renderTemplate, can_bind, can_ask, can_tell, findCase_runCases, once,
      can_pure]
    exact ⟨⟨some key, vu.vars, 0, [], []⟩, (hbody _).mono fun r hr => hone hr⟩
  | during h hn counter =>
    simp only [can_bind, can_ask]
    exact ⟨⟨n, fun hd => absurd hd h⟩, rounds_overrun hn (fun _ _ => halways _) hbody hnext hon vu⟩
  | retry times until_ =>
    refine rounds_overrun (by omega) (fun _ _ => by simp [always]) hbody hnext (fun vu => ?_) vu
    cases until_ with
    | none => exact ⟨rfl, id⟩
    | some expr =>
      simp only [can_bind, can_pure]
      exact (evalConditionBool_false script expr vu).mono fun r hr => ⟨hr.2, by simp [hr.1]⟩

theorem Exposed.ne_nil (h : Exposed script last steps) : steps ≠ [] := by
  cases h <;> simp

theorem runSteps_overrun_cons {rest : List CompiledStep}
    (h : (runStep program script s vu).Can fun x =>
      x.stop = none ∧ Overrun (last && rest.isEmpty) x.trace x.vu.lastRequestFailed) :
    (runSteps program script (s :: rest) vu).Can fun r => r.outcome = .completed ∧
      Overrun last r.trace r.vu.lastRequestFailed := by
  simp only [runSteps, can_bind]
  refine h.mono fun x hx => ?_
  have hover : Overrun (last && rest.isEmpty) (.step s :: x.trace) x.vu.lastRequestFailed := by
    simpa [Overrun] using hx.2
  simp only [hx.1, can_bind, can_pure]
  cases rest with
  | nil =>
    simp only [runSteps, can_pure, true_and]
    simpa using hover
  | cons s' rest =>
    refine ((runSteps_trace (cons_ne_nil s' rest) script x.vu).can_and
      (runSteps_can_complete script (s' :: rest) x.vu)).mono fun r hr => ?_
    exact ⟨hr.2, hover.append fun _ _ _ => .inl hr.1⟩

/-- Where a request that may abort the iteration is exposed, some run goes on after it. -/
theorem Exposed.overrun (h : Exposed script last steps) (vu : VuContext) :
    (runSteps program script steps vu).Can fun r => r.outcome = .completed ∧
      Overrun last r.trace r.vu.lastRequestFailed := by
  induction h generalizing vu with
  | request h rest =>
    rename_i script req
    simp only [runSteps, runStep, can_bind, can_pure]
    refine ((runRequest_agrees script req vu).can_and (runRequest_can h vu)).mono fun x hx => ?_
    obtain ⟨hagrees, hab, hfailed⟩ := hx
    simp only [(hagrees hab).1, RequestFlow.stop, can_pure, true_and]
    exact ⟨by simp [aborts, Event.aborts, hab], .inr ⟨rfl, hfailed⟩⟩
  | later h s ih =>
    rename_i script last rest
    simp only [runSteps, can_bind]
    refine (runStep_can_complete (fun body _ script => runSteps_can_complete script body) script
      vu).mono fun x hx => ?_
    simp only [hx, can_bind, can_pure]
    refine (ih x.vu).mono fun r hr => ⟨hr.1, ?_⟩
    obtain ⟨-, hab, hends⟩ := hr
    refine ⟨by simp [hab], hends.imp_left fun h => ?_⟩
    rw [ends_append, h, Bool.and_false]
  | within ho h ih => exact runSteps_overrun_cons (runStep_overrun ho h.ne_nil ih vu)
  | branch hb h ih =>
    rename_i script last branches body rest
    refine runSteps_overrun_cons ?_
    simp only [runStep, runParallel, joinBranches, can_bind, can_pure, runBranches_eq]
    have hall : ∀ b ∈ branches.map (runSteps program none), ∀ vu, (b vu).Can fun r =>
        r.outcome = .completed := by
      simpa using fun b _ => runSteps_can_complete none b
    refine (runEach_can_one (mem_map_of_mem hb) hall ih).mono fun rs hrs => ?_
    obtain ⟨hcompleted, r, hr, hab, hends⟩ := hrs
    refine ⟨stop_eq_none.2 (strongest_completed (by simpa using hcompleted)), ?_, ?_⟩
    · simpa using ⟨r, hr, hab⟩
    · refine hends.imp (fun h => ?_) fun h => ⟨h.1, ?_⟩
      · simpa using ⟨r, hr, h⟩
      · simpa [merge] using ⟨r, hr, h.2⟩

/-! ## Iterations -/

/-- Nothing of an iteration follows its steps: the scenario has no `exec` function, or the virtual
user has no script engine to call it with. -/
def endsWithSteps (program : ScenarioProgram) (script : Option Script) : Bool :=
  program.exec.isNone || script.isNone

section

variable (program : ScenarioProgram) (script : Option Script)

theorem runOnStart_ends (vu : VuContext) :
    (runOnStart program script vu).Every fun x => ends x.2 = true ∧ aborts x.2 = false := by
  unfold runOnStart
  split
  · split
    · simp only [every_bind, every_pure]
      exact every_of_forall fun _ => by simp [ends, Event.ends, Event.aborts, aborts]
    · simp
  · simp

theorem runExec_can {r : Result}
    (hout : r.outcome = .completed)
    (hover : ends r.trace = false ∨ aborts r.trace = true ∧ endsWithSteps program script = false) :
    (runExec program script r).Can fun r => ends r.trace = false := by
  unfold runExec
  simp only [hout]
  cases hexec : program.exec with
  | none => simpa [endsWithSteps, hexec] using hover
  | some exec =>
    cases script with
    | none => simpa [endsWithSteps] using hover
    | some engine =>
      simp only [runScript, can_bind, can_ask, can_tell, can_recordExec, can_pure]
      refine ⟨⟨.ok .null, r.vu.vars, 0, [], []⟩, ?_⟩
      rcases hover with h | ⟨h, -⟩ <;> simp [ends_append, h]

theorem runExec_every {r : Result}
    (hends : ends r.trace = true)
    (hlast : aborts r.trace = true → endsWithSteps program script = true) :
    (runExec program script r).Every fun r => ends r.trace = true := by
  unfold runExec
  split
  · rename_i exec engine hout hexec
    simp only [runScript, every_bind, every_ask, every_tell, every_recordExec, every_pure]
    intro _
    have hab : aborts r.trace = false := by
      by_contra hne
      have := hlast (by simpa using hne)
      simp_all [endsWithSteps]
    simp [ends_append, hends, hab, ends, Event.ends, Event.aborts]
  · exact hends
  · exact hends

end

/-- A request that aborts the iteration is the last thing executed in it, whatever the environment
answers, exactly if no such request is exposed. -/
theorem abort_iteration_ends_iteration (program : ScenarioProgram) (script : Option Script) :
    (∀ vu, (runIteration program script vu).Every fun r => ends r.trace = true) ↔
      ¬ Exposed script (endsWithSteps program script) program.steps := by
  constructor
  · intro hends hexposed
    have hcan : (runIteration program script ⟨0, [], fun _ => none, false⟩).Can fun r =>
        ends r.trace = false := by
      simp only [runIteration, can_bind, can_tell, can_recordIteration, can_pure]
      refine (claims_runOnStart logic_can trivial).mono fun x _ => ?_
      refine (hexposed.overrun x.1).mono fun r hr => ?_
      obtain ⟨hout, hab, hover⟩ := hr
      refine runExec_can program script hout ?_
      refine hover.imp (fun h => ?_) fun h => ⟨by simp [hab], h.1⟩
      simp [ends_append, h]
    obtain ⟨r, hr, hr'⟩ := hcan.exists_of_every (hends _)
    simp [hr] at hr'
  · intro hexposed vu
    simp only [runIteration, every_bind, every_tell, every_recordIteration, every_pure]
    refine (runOnStart_ends _ _ _).mono fun x hx => ?_
    refine (runSteps_confined program.steps hexposed x.1).mono fun r hr => ?_
    obtain ⟨⟨hends, hlast⟩, -⟩ := hr
    exact runExec_every program script (by simp [ends_append, hx, hends]) (by simpa [hx] using hlast)

def login : CompiledRequest :=
  ⟨"login", "http", "POST", [], [⟨"status", none, .abortIteration⟩], []⟩

def checkout : CompiledRequest := ⟨"checkout", "http", "POST", [], [], []⟩

/-- Every request is sent and answered with status 500, and its assertions fail. -/
def serverErrors : (q : Query) → Option q.Answer
  | .prepare req => some ⟨.ready req.displayName, fun _ => none, 0, [], []⟩
  | .handled _ => some true
  | .execute _ => some { protocolVersion := "HTTP/1.1", status := 500 }
  | .evaluate _ _ _ => some { pass := false }
  | .script _ _ => some ⟨.ok .null, fun _ => none, 0, [], []⟩
  | .elapsed => some (.fin 0)
  | _ => none

/-- After the abort inside a group the next request is sent, and after a flat flow that aborts the
`exec` function is called. -/
theorem abort_iteration_goes_on :
    (runIteration
      { name := "shop", steps := [.group "session" [.request login], .request checkout] } none
      ⟨0, [], fun _ => none, false⟩).Can (fun r =>
        r.trace = [.step (.group "session" [.request login]), .step (.request login),
          .checked login [.abortIteration], .step (.request checkout), .checked checkout []] ∧
        ends r.trace = false) ∧
    (runIteration { name := "shop", steps := [.request login], exec := some "main" } (some ⟨["main"]⟩)
      ⟨0, [], fun _ => none, false⟩).Can (fun r =>
        r.trace = [.step (.request login), .checked login [.abortIteration], .called "main"] ∧
        ends r.trace = false) :=
  ⟨can_of_answered serverErrors rfl ⟨rfl, rfl⟩, can_of_answered serverErrors rfl ⟨rfl, rfl⟩⟩

end Loadr.Flow
