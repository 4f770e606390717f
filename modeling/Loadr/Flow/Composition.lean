import Loadr.Flow.Program

/-!
# From parts to flows

`Logic I K` collects what is needed of a claim `K` about computations, given and giving contexts
with the property `I`; `step_rule` leads from the bodies of a step to the step.  `FlowLogic` adds
what groups and parallel steps do, and leads from requests to flows.

`Leaves C` says that every transcript has the property `C`.  `Guarded G R I` says that, as long as
the answers are allowed by `G`, every output under a path has the property `R` and every context the
property `I`.
-/

namespace Loadr.Flow

open Dialogue

/-- What a claim `K vu view d` about a computation `d` in the context `vu`, of a value with the
context `view`, needs to hold of the parts of a step, for contexts with the property `I`. -/
structure Logic (I : VuContext → Prop)
    (K : VuContext → ∀ α : Type, (α → VuContext) → Run α → Prop) : Prop where
  pure {vu : VuContext} {α : Type} {view : α → VuContext} {a : α} : I (view a) →
    (view a).lastRequestFailed = vu.lastRequestFailed → K vu α view (pure a)
  bind {vu : VuContext} {α β : Type} {view : α → VuContext} {view' : β → VuContext} {d : Run α}
    {f : α → Run β} :
    K vu α view d → (∀ a, I (view a) → K (view a) β view' (f a)) → K vu β view' (d >>= f)
  pause {vu : VuContext} : I vu → K vu Unit (fun _ => vu) (pause vu)
  feed {vu : VuContext} (calls : List FeedCall) :
    I vu → K vu Unit (fun _ => vu) (tell (.feed calls))
  exception {vu : VuContext} (site message : String) :
    I vu → K vu Unit (fun _ => vu) (recordException vu site message)
  reset {vu vu' : VuContext} : I vu' → vu'.lastRequestFailed = false →
    K vu Unit (fun _ => vu') (tell .reset)
  script {vu : VuContext} {site : Site} (engine : Script) (invocation : ScriptInvocation) :
    site = .onStart ∨ site = .jsStep ∨ site = .step → I vu →
      K vu _ (fun effect => vu.affected (some engine) effect) (ask (.script site invocation))
  render {vu : VuContext} (script : Option Script) (template : String) :
    I vu → K vu _ (fun effect => vu.affected script effect) (ask (.render template))
  items {vu : VuContext} (script : Option Script) (items : String) :
    I vu → K vu _ (fun effect => vu.affected script effect) (ask (.items items))

/-! ## The parts of steps -/

variable {I : VuContext → Prop} {K : VuContext → ∀ α : Type, (α → VuContext) → Run α → Prop}
  {program : ScenarioProgram} {script : Option Script} {vu : VuContext}

section Parts

section

variable (L : Logic I K)
include L

theorem claims_pauseIf (hvu : I vu) (b : Bool) : K vu Unit (fun _ => vu) (pauseIf b vu) := by
  cases b with
  | true => exact L.pause hvu
  | false => exact L.pure hvu rfl

theorem claims_runScript {site : Site} {engine : Script}
    {invocation : ScriptInvocation}
    (h : K vu _ (fun effect => vu.affected (some engine) effect) (ask (.script site invocation))) :
    K vu _ Prod.snd (runScript site engine invocation vu) :=
  L.bind h fun _ h => L.bind (L.feed _ h) fun _ h => L.pure h rfl

theorem claims_renderTemplate (hvu : I vu) (template : String) :
    K vu _ Prod.snd (renderTemplate script template vu) :=
  L.bind (L.render script template hvu) fun _ h => L.bind (L.feed _ h) fun _ h => L.pure h rfl

theorem claims_evalConditionBool (hvu : I vu) (expr : String) :
    K vu _ Prod.snd (evalConditionBool script expr vu) := by
  unfold evalConditionBool
  split
  · exact L.bind (claims_runScript L (L.script _ _ (by simp) hvu)) fun _ h => L.pure h rfl
  · exact L.pure hvu rfl

theorem claims_resolveItems (hvu : I vu) (items : Json) :
    K vu _ Prod.snd (resolveItems script items vu) := by
  unfold resolveItems
  split
  · exact L.pure hvu rfl
  · exact L.bind (L.items script _ hvu) fun _ h => L.bind (L.feed _ h) fun _ h => L.pure h rfl
  · exact L.pure hvu rfl

theorem claims_runRecorded {site : Site}
    (hsite : site = .onStart ∨ site = .jsStep ∨ site = .step) (hvu : I vu) (siteName : String)
    (engine : Script) (invocation : ScriptInvocation) :
    K vu _ id (runRecorded site siteName engine invocation vu) := by
  refine L.bind (claims_runScript L (L.script engine invocation hsite hvu)) fun ⟨value, vu⟩ h => ?_
  cases value with
  | ok => exact L.pure h rfl
  | error message => exact L.bind (L.exception _ _ h) fun _ h => L.pure h rfl

theorem claims_runOnStart (hvu : I vu) : K vu _ Prod.fst (runOnStart program script vu) := by
  unfold runOnStart
  split
  · split
    · exact L.bind (claims_runRecorded L (by simp) hvu _ _ _) fun _ h => L.pure h rfl
    · exact L.pure hvu rfl
  · exact L.pure hvu rfl

end

variable {body : VuContext → Run Result}

theorem claims_once (L : Logic I K) (h : K vu _ Result.vu (body vu)) :
    K vu _ StepResult.vu (once body vu) :=
  L.bind h fun _ h => L.pure h rfl

theorem claims_rounds (L : Logic I K) {enter : ℕ → VuContext → Run (Bool × VuContext)}
    {again : VuContext → Run (Bool × VuContext)} (hbody : ∀ vu, I vu → K vu _ Result.vu (body vu))
    (henter : ∀ i vu, I vu → K vu _ Prod.snd (enter i vu))
    (hagain : ∀ vu, I vu → K vu _ Prod.snd (again vu)) (n i : ℕ) (hvu : I vu) :
    K vu _ StepResult.vu (rounds body enter again n i vu) := by
  induction n generalizing i vu with
  | zero => exact L.pure hvu rfl
  | succ n ih =>
    refine L.bind (henter i vu hvu) fun ⟨entered, vu⟩ h => ?_
    simp only
    split
    · refine L.bind (hbody vu h) fun r h => ?_
      split
      · exact L.pure h rfl
      · refine L.bind (hagain r.vu h) fun ⟨more, vu⟩ h => ?_
        simp only
        split
        · exact L.bind (ih (i + 1) h) fun rest h => L.pure h rfl
        · exact L.pure h rfl
    · exact L.pure h rfl

theorem claims_runParallel (L : Logic I K) {branches : List (VuContext → Run Result)}
    (hflag : ∀ {vu vu' α view d}, K vu α view d → K vu' α view d)
    (hcongr : ∀ {vu vu'}, I vu → vu'.groups = vu.groups → I vu')
    (htell : ∀ {o}, o = .fork ∨ o = .join → K vu Unit (fun _ => vu) (tell o))
    (hresumed : K vu _ (fun _ => vu) (ask .resumed))
    (hbranch : ∀ b ∈ branches, K vu _ (fun _ => vu) (sever (b (childContext vu)))) (hvu : I vu) :
    K vu _ StepResult.vu (runParallel branches vu) := by
  have hall : K vu _ (fun _ => vu) (runAll vu branches) := by
    induction branches with
    | nil => exact L.pure hvu rfl
    | cons b branches ih =>
      refine L.bind (htell (.inl rfl)) fun _ _ => ?_
      refine L.bind (hbranch b (by simp)) fun r _ => L.bind (htell (.inr rfl)) fun _ _ => ?_
      exact L.bind (ih fun b' hb' => hbranch b' (by simp [hb'])) fun _ h => L.pure h rfl
  have heach : K vu _ (fun _ => vu) (runEach vu branches) := by
    refine L.bind hall fun results h => ?_
    cases results with
    | some results => exact L.pure h rfl
    | none => exact L.bind (L.pause h) fun _ _ => L.bind hresumed fun never _ => never.elim
  have hreset : K vu Unit (fun _ => childContext vu) (tell .reset) := L.reset (hcongr hvu rfl) rfl
  refine L.bind hreset fun _ _ => L.bind (hflag heach) fun results h => ?_
  exact hflag (L.pure (hcongr h rfl) rfl)

end Parts

/-! ## Steps -/

/-- A claim `T` about steps follows from what is claimed of their bodies, one after the other, in a
group, in a loop or in branches. -/
theorem step_rule {T : VuContext → Run StepResult → Prop} {s : CompiledStep} (L : Logic I K)
    (hseq : ∀ {vu α view d f},
      K vu α view d → (∀ a, I (view a) → T (view a) (f a)) → T vu (d >>= f))
    (hcongr : ∀ {vu vu'}, I vu → vu'.groups = vu.groups → I vu')
    (hnone : ∀ {vu}, I vu → T vu (pure ⟨vu, [], none⟩))
    (hpick : ∀ {vu} strategy {choices}, choices ≠ [] → I vu →
      K vu ℕ (fun _ => vu) (pickBranch strategy choices))
    (hcount : ∀ {vu} duration, I vu → K vu _ (fun _ => vu) (ask (.rounds duration)))
    (hrequest : ∀ req, s = .request req → T vu (runStep program script s vu))
    (honce : ∀ body ∈ s.bodies, ∀ {vu}, I vu → T vu (once (runSteps program script body) vu))
    (hgroup : ∀ body ∈ s.bodies, ∀ name {vu}, I vu →
      T vu (inGroup name (runSteps program script body) vu))
    (hrounds : ∀ body ∈ s.bodies, ∀ {enter again} n {vu},
      (∀ i vu, I vu → K vu _ Prod.snd (enter i vu)) →
        (∀ vu, I vu → K vu _ Prod.snd (again vu)) → I vu →
          T vu (rounds (runSteps program script body) enter again n 0 vu))
    (hparallel : ∀ branches, s = .parallel branches →
      T vu (runParallel (branches.map (runSteps program none)) vu)) (hvu : I vu) :
    T vu (runStep program script s vu) := by
  have halways (vu : VuContext) (h : I vu) : K vu _ Prod.snd (always vu) := L.pure h rfl
  have hloop (steps : List CompiledStep) (h : steps ∈ s.bodies) {set : ℕ → VuContext → VuContext}
      (hset : ∀ i vu, (set i vu).groups = vu.groups ∧
        (set i vu).lastRequestFailed = vu.lastRequestFailed)
      (n : ℕ) {vu : VuContext} (hvu : I vu) :
      T vu (rounds (runSteps program script steps) (fun i vu => always (set i vu)) always n 0
        vu) :=
    hrounds steps h n (fun i vu h => L.pure (hcongr h (hset i vu).1) (hset i vu).2) halways hvu
  cases s with simp only [runStep]
  | request req => simpa only [runStep] using hrequest req rfl
  | thinkTime | rendezvous =>
    exact hseq (L.pause hvu) fun _ h => hnone h
  | js call code =>
    split
    · exact hseq (claims_runRecorded L (by simp) hvu _ _ _) fun _ h => hnone h
    · exact hseq (claims_runRecorded L (by simp) hvu _ _ _) fun _ h => hnone h
    · exact hnone hvu
  | group name steps =>
    exact hgroup steps (by simp) name hvu
  | repeatStep times counter steps =>
    exact hloop steps (by simp) (by exact fun _ _ => ⟨rfl, rfl⟩) _ hvu
  | whileStep condition n steps =>
    exact hrounds steps (by simp) n
      (fun _ _ h => claims_evalConditionBool L h condition) halways hvu
  | ifStep condition then_ otherwise =>
    refine hseq (claims_evalConditionBool L hvu condition) fun x h => ?_
    obtain ⟨holds, vu⟩ := x
    cases holds with
    | true => exact honce then_ (by simp) h
    | false => exact honce otherwise (by simp) h
  | random strategy choices =>
    split
    · exact hnone hvu
    · rename_i hne
      refine hseq (hpick strategy (by simpa using hne) hvu) fun i h => ?_
      simp only [runChoices_eq, List.getElem?_map]
      cases hc : choices[i]? with
      | none => exact hnone h
      | some c =>
        have hmem : c.steps ∈ (CompiledStep.random strategy choices).bodies :=
          List.mem_map_of_mem (List.mem_of_getElem? hc)
        exact hgroup c.steps hmem _ h
  | foreach items var index steps =>
    refine hseq (claims_resolveItems L hvu items) fun x h => ?_
    exact hloop steps (by simp) (by exact fun _ _ => ⟨rfl, rfl⟩) _ h
  | switch value cases default =>
    simp only [findCase_runCases]
    refine hseq (claims_renderTemplate L hvu value) fun x h => honce _ ?_ h
    rcases findCase_mem cases default (x.1.getD "") with h | ⟨c, hc, h⟩
    · simp [h]
    · simpa using .inr ⟨c.1, h ▸ hc⟩
  | during duration counter steps =>
    exact hseq (hcount duration hvu) fun n h =>
      hloop steps (by simp) (by exact fun _ _ => ⟨rfl, rfl⟩) _ h
  | retry times until_ backoff steps =>
    refine hrounds steps (by simp) _ ?_ ?_ hvu
    · intro i vu h
      have hreset : K vu Unit (fun _ =>
          { vu.insert "attempt" (.number i) with lastRequestFailed := false }) (tell .reset) :=
        L.reset (hcongr h rfl) rfl
      refine L.bind (claims_pauseIf L h _) fun _ _ => L.bind hreset fun _ h => L.pure h rfl
    · intro vu h
      cases until_ with
      | some expr => exact L.bind (claims_evalConditionBool L h expr) fun _ h => L.pure h rfl
      | none => exact L.pure h rfl
  | parallel branches =>
    simp only [runBranches_eq]
    exact hparallel branches rfl

/-- What a claim, for contexts under a path of groups and with a script engine or none, needs to
hold of flows. -/
structure FlowLogic (I : List String → VuContext → Prop)
    (K : List String → Option Script → VuContext → ∀ α : Type, (α → VuContext) → Run α → Prop) :
    Prop where
  logic (base : List String) (script : Option Script) : Logic (I base) (K base script)
  congr {base : List String} {vu vu' : VuContext} : I base vu → vu'.groups = vu.groups → I base vu'
  draw {base : List String} {script : Option Script} {vu : VuContext} {q : Query}
    (hq : q = .cursor ∨ (∃ n, q = .index n) ∨ (∃ total, q = .draw total) ∨ ∃ d, q = .rounds d) :
    I base vu → K base script vu _ (fun _ => vu) (ask q)
  group {base : List String} {script : Option Script} {vu : VuContext}
    {body : VuContext → Run Result} (name : String) :
    (∀ vu, I (base ++ [name]) vu → K (base ++ [name]) script vu _ Result.vu (body vu)) →
      I base vu → K base script vu _ StepResult.vu (inGroup name body vu)
  /-- Branches have no script engine. -/
  parallel {base : List String} {script : Option Script} {vu : VuContext}
    {branches : List (VuContext → Run Result)} :
    (∀ b ∈ branches, ∀ vu, I base vu → K base none vu _ Result.vu (b vu)) → I base vu →
      K base script vu _ StepResult.vu (runParallel branches vu)

namespace FlowLogic

variable {I : List String → VuContext → Prop} {base : List String}
  {K : List String → Option Script → VuContext → ∀ α : Type, (α → VuContext) → Run α → Prop}

theorem pickBranch (F : FlowLogic I K) (hvu : I base vu) (strategy : SwitchStrategy)
    (choices : List (CompiledChoice CompiledStep)) :
    K base script vu ℕ (fun _ => vu) (pickBranch strategy choices) := by
  have L := F.logic base script
  cases strategy with
  | roundRobin | uniform => exact L.bind (F.draw (by simp) hvu) fun _ h => L.pure h rfl
  | weighted =>
    simp only [Flow.pickBranch]
    split
    · exact L.bind (F.draw (by simp) hvu) fun _ h => L.pure h rfl
    · exact L.bind (F.draw (by simp) hvu) fun _ h => L.pure h rfl

theorem runSteps (F : FlowLogic I K)
    (hrequest : ∀ base script req vu, I base vu →
      K base script vu _ (fun x => x.2.1) (runRequest program script req vu))
    (script : Option Script) (steps : List CompiledStep) (base : List String) (hvu : I base vu) :
    K base script vu _ Result.vu (runSteps program script steps vu) := by
  induction steps using steps_induction generalizing script base vu with
  | nil =>
    simp only [Flow.runSteps]
    exact (F.logic base script).pure hvu rfl
  | cons s rest hbody hrest =>
    have L := F.logic base script
    have hstep : K base script vu _ StepResult.vu (runStep program script s vu) := by
      refine step_rule (T := fun vu => K base script vu _ StepResult.vu) L L.bind F.congr
        (fun h => L.pure h rfl) (fun _ _ _ h => F.pickBranch h _ _)
        (fun _ h => F.draw (by simp) h) ?_ ?_ ?_ ?_ ?_ hvu
      · rintro req rfl
        simp only [runStep]
        refine L.bind (hrequest base script req vu hvu) fun x h => ?_
        exact L.bind (claims_pauseIf L h _) fun _ h => L.pure h rfl
      · exact fun body hb vu h => claims_once L (hbody body hb script base h)
      · exact fun body hb name vu h => F.group name (fun vu h => hbody body hb script _ h) h
      · exact fun body hb _ _ n vu henter hagain h =>
          claims_rounds L (fun vu h => hbody body hb script base h) henter hagain n 0 h
      · rintro branches rfl
        refine F.parallel (fun b hb vu h => ?_) hvu
        obtain ⟨body, hmem, rfl⟩ := List.mem_map.1 hb
        exact hbody body hmem none base h
    simp only [Flow.runSteps]
    refine L.bind hstep fun first h => ?_
    split
    · exact L.pure h rfl
    · exact L.bind (hrest script base h) fun others h => L.pure h rfl

end FlowLogic

/-! ## What every transcript has -/

/-- An entry that the steps other than requests leave in a transcript. -/
def Plain : Entry → Prop
  | .asked (.script site _) _ => site = .onStart ∨ site = .jsStep ∨ site = .step
  | .asked (.render _) _ | .asked (.items _) _ => True
  | .asked .cursor _ | .asked (.index _) _ | .asked (.draw _) _ | .asked (.rounds _) _ => True
  | .told (.emit emissions) => ∃ vu : VuContext, ∃ tags,
      emissions = [vu.sample .vuExceptions (.fin 1) tags]
  | .told (.await point) | .cut (.await point) => ∀ elapsed, point.onDrop elapsed = []
  | .told (.feed _) | .told .fork | .told .join | .told .reset => True
  | _ => False

/-- What a branch leaves for an entry of its transcript, with the time since the request began in
which it is dropped. -/
def severedAt (elapsed : F64) : Entry → Transcript
  | .told (.await _) => [.asked .cancelled none]
  | .cut (.await point) =>
    [.asked .cancelled (some elapsed), .told (.emit (point.onDrop elapsed))]
  | e => [e]

def severed (elapsed : F64) (t : Transcript) : Transcript := t.flatMap (severedAt elapsed)

/-- A property of transcripts that groups and branches pass on. -/
structure Composed (C : Transcript → Prop) : Prop extends Cumulative C where
  within {t : Transcript} (name : String) : C t → C (t.map (.relay (.within name)))
  severed {t : Transcript} (elapsed : F64) : C t → C (severed elapsed t)
  plain {e : Entry} : Plain e → C [e]

def Leaves {α : Type} (C : Transcript → Prop) (d : Run α) : Prop :=
  d.Always Output.IsAwait fun t _ => C t

variable {α β : Type} {C : Transcript → Prop} {d : Run α}

theorem Leaves.bind {f : α → Run β} (hd : Leaves C d) (hC : Composed C)
    (hf : ∀ a, Leaves C (f a)) : Leaves C (d >>= f) :=
  hC.toCumulative.bind hd hf

theorem leaves_pure (hC : Composed C) (a : α) : Leaves C (pure a) := hC.nil

theorem leaves_tell (hC : Composed C) {o : Output} (h : Plain (.told o))
    (hcut : o.IsAwait → Plain (.cut o)) : Leaves C (tell o) :=
  ⟨fun hawait => hC.plain (hcut hawait), hC.plain h⟩

theorem isAwait_within (name : String) (o : Output) : (o.within name).IsAwait ↔ o.IsAwait := by
  cases o <;> exact Iff.rfl

theorem always_sever {P : Transcript → Option α → Prop} (h : d.Always Output.IsAwait P) :
    (sever d).Always Output.IsAwait fun u r =>
      ∃ t elapsed o, u = severed elapsed t ∧ r = some o ∧ P t o := by
  induction d generalizing P with
  | done a => exact ⟨[], 0, some a, rfl, rfl, h⟩
  | ask q next ih =>
    refine fun answer => (ih answer (h answer)).mono ?_
    rintro _ _ ⟨t, elapsed, o, rfl, rfl, h⟩
    exact ⟨_, elapsed, o, rfl, rfl, h⟩
  | tell o next ih =>
    cases o with
    | await point =>
      intro dropped
      cases dropped with
      | some elapsed =>
        exact ⟨fun h => h.elim, [.cut (.await point)], elapsed, none, rfl, rfl, h.1 trivial⟩
      | none =>
        refine (ih h.2).mono ?_
        rintro _ _ ⟨t, elapsed, o, rfl, rfl, h⟩
        exact ⟨_, elapsed, o, rfl, rfl, h⟩
    | _ =>
      refine ⟨fun h => h.elim, (ih h.2).mono ?_⟩
      rintro _ _ ⟨t, elapsed, o, rfl, rfl, h⟩
      exact ⟨_, elapsed, o, rfl, rfl, h⟩

theorem Composed.logic (hC : Composed C) : Logic (fun _ => True) fun _ _ _ d => Leaves C d where
  pure _ _ := leaves_pure hC _
  bind hd hf := hd.bind hC fun a => hf a trivial
  pause _ := leaves_tell hC (fun _ => rfl) fun _ _ => rfl
  feed _ _ := leaves_tell hC trivial id
  exception _ _ _ := leaves_tell (o := .emit _) hC ⟨_, _, rfl⟩ id
  reset _ _ := leaves_tell hC trivial id
  script _ _ hsite _ := fun _ => hC.plain hsite
  render _ _ _ := fun _ => hC.plain trivial
  items _ _ _ := fun _ => hC.plain trivial

theorem Composed.flowLogic (hC : Composed C) :
    FlowLogic (fun _ _ => True) fun _ _ _ _ _ d => Leaves C d where
  logic _ _ := hC.logic
  congr h _ := h
  draw hq _ := fun _ => hC.plain (by rcases hq with rfl | ⟨_, rfl⟩ | ⟨_, rfl⟩ | ⟨_, rfl⟩ <;> trivial)
  group name hbody _ := by
    refine Leaves.bind (always_relay.2 ?_) hC fun _ => leaves_pure hC _
    simp only [isAwait_within]
    exact (hbody _ trivial).mono fun _ _ => hC.within name
  parallel hbranch _ := by
    refine claims_runParallel hC.logic id (fun h _ => h) ?_ (fun never => never.elim) ?_ trivial
    · rintro _ (rfl | rfl)
      · exact leaves_tell hC trivial id
      · exact leaves_tell hC trivial id
    · refine fun b hb => (always_sever (hbranch b hb _ trivial)).mono ?_
      rintro _ _ ⟨t, elapsed, -, rfl, -, ht⟩
      exact hC.severed elapsed ht

theorem leaves_runSteps (hC : Composed C)
    (hrequest : ∀ script req vu, Leaves C (runRequest program script req vu))
    (script : Option Script) (steps : List CompiledStep) (vu : VuContext) :
    Leaves C (runSteps program script steps vu) :=
  hC.flowLogic.runSteps (fun _ script req vu _ => hrequest script req vu) script steps [] trivial

theorem leaves_runOnStart (hC : Composed C) (program : ScenarioProgram) (script : Option Script)
    (vu : VuContext) : Leaves C (runOnStart program script vu) :=
  claims_runOnStart hC.logic trivial

/-! ## What is told under allowed answers -/

/-- An output without samples at which the iteration cannot be dropped. -/
def Output.Quiet : Output → Prop
  | .emit emissions => emissions = [.beginRequest]
  | .await _ | .beginIteration => False
  | _ => True

/-- Under answers that `G` allows, the interpreter keeps the property `I` of contexts, and what it
puts out under a path has the property `R`. -/
structure Guarded (G : (q : Query) → q.Answer → Prop) (R : List String → Output → Prop)
    (I : List String → VuContext → Prop) : Prop where
  congr {base vu vu'} : I base vu → vu'.groups = vu.groups → I base vu'
  script {base vu site invocation effect} (engine : Script) :
    G (.script site invocation) effect → I base vu → I base (vu.affected (some engine) effect)
  render {base vu template effect} (script : Option Script) :
    G (.render template) effect → I base vu → I base (vu.affected script effect)
  items {base vu items effect} (script : Option Script) :
    G (.items items) effect → I base vu → I base (vu.affected script effect)
  prepare {base vu req effect} (script : Option Script) :
    G (.prepare req) effect → I base vu → I base (vu.affected script effect)
  quiet {base o} : o.Quiet → R base o
  samples {base vu emissions} :
    (∀ e ∈ emissions, ∃ metric value tags, e = vu.sample metric value tags) → I base vu →
      R base (.emit emissions)
  ended {base vu} (prepared : PreparedRequest) (response : ProtocolResponse) : I base vu →
    R base (.emit (emitRequestMetrics vu.groups prepared response ++ [.endRequest]))
  await {base vu} {onDrop : F64 → List Emission}
    (h : ∀ elapsed, onDrop elapsed = [] ∨ ∃ prepared,
      onDrop elapsed = emitRequestMetrics vu.groups prepared (cancelledResponse elapsed) ++
        [.endRequest]) : I base vu → R base (.await { vu, onDrop })
  push {base vu} (name : String) : I base vu → I (base ++ [name]) (vu.pushGroup name)
  pop {base vu name} : I (base ++ [name]) vu → I base vu.popGroup
  within {base name o} : R (base ++ [name]) o → R base (o.within name)
  dropped {base point} (elapsed : F64) :
    R base (.await point) → R base (.emit (point.onDrop elapsed))

namespace Guarded

variable {G : (q : Query) → q.Answer → Prop} {R : List String → Output → Prop}
  {I : List String → VuContext → Prop} {base : List String}

/-- The claim of a guarded interpreter about one of its parts. -/
def Claim (G : (q : Query) → q.Answer → Prop) (R : List String → Output → Prop)
    (I : List String → VuContext → Prop) (base : List String) (α : Type) (view : α → VuContext)
    (d : Run α) : Prop :=
  d.Safe G (R base) fun a => I base (view a)

theorem claims_bind {α β : Type} {view : α → VuContext} {view' : β → VuContext} {d : Run α}
    {f : α → Run β} (hd : Claim G R I base α view d)
    (hf : ∀ a, I base (view a) → Claim G R I base β view' (f a)) :
    Claim G R I base β view' (d >>= f) :=
  safe_bind.2 (hd.mono (fun _ h => h) hf)

theorem logic (hG : Guarded G R I) (base : List String) :
    Logic (I base) fun _ => Claim G R I base where
  pure h _ := h
  bind := claims_bind
  pause h := ⟨hG.await (fun _ => .inl rfl) h, h⟩
  feed _ h := ⟨hG.quiet trivial, h⟩
  exception _ _ h := ⟨hG.samples (by simp) h, h⟩
  reset h _ := ⟨hG.quiet trivial, h⟩
  script engine _ _ h := fun _ hG' => hG.script engine hG' h
  render script _ h := fun _ hG' => hG.render script hG' h
  items script _ h := fun _ hG' => hG.items script hG' h

theorem safe_sever {α : Type} {P : α → Prop} {d : Run α} (hG : Guarded G R I)
    (h : d.Safe G (R base) P) : (sever d).Safe G (R base) fun _ => True := by
  induction d with
  | done => trivial
  | ask q next ih => exact fun answer hanswer => ih answer (h answer hanswer)
  | tell o next ih =>
    cases o with
    | await point =>
      intro dropped _
      cases dropped with
      | none => exact ih h.2
      | some elapsed => exact ⟨hG.dropped elapsed h.1, trivial⟩
    | _ => exact ⟨h.1, ih h.2⟩

theorem flowLogic (hG : Guarded G R I) : FlowLogic I fun base _ _ => Claim G R I base where
  logic base _ := hG.logic base
  congr := hG.congr
  draw _ h := fun _ _ => h
  group name hbody h := safe_bind.2 <| safe_relay.2 <|
    (hbody _ (hG.push name h)).mono (fun _ => hG.within) fun _ h => hG.pop h
  parallel hbranch h := by
    refine claims_runParallel (hG.logic _) id hG.congr ?_ (fun never => never.elim) ?_ h
    · rintro _ (rfl | rfl)
      · exact ⟨hG.quiet trivial, h⟩
      · exact ⟨hG.quiet trivial, h⟩
    · have hchild : I _ (childContext _) := hG.congr h rfl
      exact fun b hb => (hG.safe_sever (hbranch b hb _ hchild)).mono (fun _ h => h) fun _ _ => h

theorem claims_ask (q : Query) (hvu : I base vu) : Claim G R I base _ (fun _ => vu) (ask q) :=
  fun _ _ => hvu

theorem claims_tell {o : Output} (ho : R base o) (hvu : I base vu) :
    Claim G R I base _ (fun _ => vu) (tell o) :=
  ⟨ho, hvu⟩

variable (hG : Guarded G R I)
include hG

theorem claims_sample (hvu : I base vu) (metric : Metric) (value : F64)
    (tags : List (String × String)) :
    Claim G R I base Unit (fun _ => vu) (tell (.emit [vu.sample metric value tags])) :=
  claims_tell (hG.samples (by simp) hvu) hvu

theorem claims_emitIf (hvu : I base vu) (b : Bool) (metric : Metric) (value : F64)
    (tags : List (String × String)) :
    Claim G R I base Unit (fun _ => vu) (emitIf b (vu.sample metric value tags)) := by
  cases b with
  | true => exact hG.claims_sample hvu metric value tags
  | false => exact hvu

theorem claims_script (hvu : I base vu) (site : Site) (engine : Script)
    (invocation : ScriptInvocation) :
    Claim G R I base _ Prod.snd (runScript site engine invocation vu) :=
  claims_runScript (hG.logic base) fun _ h => hG.script engine h hvu

theorem claims_callHook (hvu : I base vu) (site : Site) (function : String) :
    Claim G R I base _ Prod.snd (callHook site script function vu) := by
  unfold callHook
  split
  · split
    · exact claims_bind (hG.claims_script hvu site _ _) fun _ h => h
    · exact hvu
  · exact hvu

theorem claims_runExtract (prepared : String) (response : ProtocolResponse)
    (es : List CompiledExtractor) {c : Checked} (hc : I base c.vu) :
    Claim G R I base _ Checked.vu (runExtract prepared response es c) := by
  induction es generalizing c with
  | nil => exact hc
  | cons e es ih =>
    refine claims_bind (claims_ask _ hc) fun extracted _ => ?_
    split
    · exact ih hc
    · split
      · exact ih (hG.congr hc rfl)
      · refine claims_bind (claims_ask _ hc) fun pass _ => ?_
        refine claims_bind (hG.claims_sample hc _ _ _) fun _ _ => ?_
        split
        · exact ih (hG.congr hc rfl)
        · exact ih hc

theorem claims_evalCondition (hvu : I base vu) (site : Site) (condition : CompiledCondition)
    (response : ProtocolResponse) :
    Claim G R I base _ Prod.snd (evalCondition site script condition response vu) := by
  unfold evalCondition
  split
  · exact claims_bind (hG.claims_script hvu _ _ _) fun _ h => hG.congr h rfl
  · exact hvu
  · exact claims_bind (claims_ask _ hvu) fun _ h => h

theorem claims_runAssert (prepared : String) (response : ProtocolResponse)
    (cs : List CompiledCondition) {c : Checked} (hc : I base c.vu) :
    Claim G R I base _ Checked.vu (runAssert script prepared response cs c) := by
  induction cs generalizing c with
  | nil => exact hc
  | cons condition cs ih =>
    refine claims_bind (hG.claims_evalCondition hc _ condition response) fun a ha => ?_
    simp only
    split
    · exact ih ha
    · exact ih ha

theorem claims_runChecks (response : ProtocolResponse) (cs : List CompiledCondition)
    (hvu : I base vu) : Claim G R I base _ id (runChecks script response cs vu) := by
  induction cs generalizing vu with
  | nil => exact hvu
  | cons condition cs ih =>
    refine claims_bind (hG.claims_evalCondition hvu _ condition response) fun a ha => ?_
    have hsample : Claim G R I base Unit (fun _ => a.2)
        (tell (.emit [conditionSample a.2 condition.name a.1])) := by
      unfold conditionSample
      split
      · exact hG.claims_sample ha _ _ _
      · exact hG.claims_sample ha _ _ _
    exact claims_bind hsample fun _ h => ih h

theorem claims_acquire (hvu : I base vu) :
    Claim G R I base _ (fun _ => vu) (acquire program vu) := by
  unfold acquire
  split
  · exact fun wait _ => claims_pauseIf (hG.logic base) hvu _
  · exact hvu

theorem claims_injectLatency (hvu : I base vu) :
    Claim G R I base _ (fun _ => vu) (injectLatency program vu) := by
  have L := hG.logic base
  unfold injectLatency
  split
  · refine claims_bind (claims_ask _ hvu) fun jitter _ => ?_
    split
    · exact hvu
    · exact claims_bind (hG.claims_sample hvu _ _ _) fun _ h => L.pause h
  · exact hvu

section

variable (hvu : I base vu) (req : CompiledRequest)
include hvu

theorem claims_send (prepared : PreparedRequest) :
    Claim G R I base _ (fun _ => vu) (send program req prepared vu) := by
  have hdrop : Claim G R I base _ (fun _ => vu) (dropFault program) := by
    unfold dropFault faultDropDecision
    split
    · split
      · exact fun _ _ => hvu
      · exact hvu
    · exact hvu
  have hexecute : Claim G R I base _ (fun _ => vu) (exchange.execute req prepared vu) :=
    ⟨hG.await (fun _ => .inr ⟨prepared, rfl⟩) hvu, fun _ _ => hvu⟩
  have hexchange (dropped : Option DropMode) :
      Claim G R I base _ (fun _ => vu) (exchange dropped req prepared vu) := by
    unfold exchange
    split
    · exact claims_bind (hG.claims_sample hvu _ _ _) fun _ h => h
    · exact claims_bind hexecute fun _ _ => claims_bind (hG.claims_sample hvu _ _ _) fun _ h => h
    · exact hexecute
  refine claims_bind hdrop fun dropped _ => ?_
  refine claims_bind (claims_tell (hG.quiet rfl) hvu) fun _ _ => ?_
  refine claims_bind (hexchange dropped) fun response _ => ?_
  exact claims_bind (claims_tell (hG.ended prepared response hvu) hvu) fun _ h => h

theorem claims_conclude (name : String)
    (response : ProtocolResponse) :
    Claim G R I base _ (fun x => x.2.1) (conclude script req name response vu) := by
  refine claims_bind (hG.claims_runExtract name response req.extract hvu) fun extracted h => ?_
  refine claims_bind (hG.claims_emitIf h _ _ _ _) fun _ h => ?_
  refine claims_bind (claims_tell (hG.quiet trivial) h) fun _ h => ?_
  refine claims_bind (hG.claims_callHook h _ _) fun hook h => ?_
  refine claims_bind (hG.claims_runAssert name response req.assert h) fun asserted h => ?_
  refine claims_bind (hG.claims_emitIf h _ _ _ _) fun _ h => ?_
  exact claims_bind (hG.claims_runChecks response req.checks h) fun _ h => hG.congr h rfl

theorem claims_runRequest :
    Claim G R I base _ (fun x => x.2.1) (runRequest program script req vu) := by
  refine claims_bind (hG.claims_acquire hvu) fun _ h => ?_
  refine claims_bind (hG.claims_injectLatency h) fun _ h => ?_
  refine claims_bind (claims_tell (hG.quiet trivial) h) fun _ h => ?_
  have hprepare : Claim G R I base _ Prod.snd (Flow.prepare script req vu) := fun _ hG' =>
    ⟨hG.quiet trivial, hG.prepare script hG' h⟩
  refine claims_bind hprepare fun ⟨prepared, vu⟩ h => ?_
  cases prepared with
  | dataExhausted => exact h
  | other => exact claims_bind (hG.claims_sample h _ _ _) fun _ h => h
  | ready name =>
    refine claims_bind (hG.claims_callHook h _ _) fun ⟨updated, vu⟩ h => ?_
    refine claims_bind (claims_ask _ h) fun handled _ => ?_
    cases handled with
    | false => exact claims_bind (hG.claims_sample h _ _ _) fun _ h => h
    | true => exact claims_bind (hG.claims_send h req _) fun response h =>
        hG.claims_conclude h req _ response

end

theorem claims_runExec {r : Result} (hr : I base r.vu) :
    Claim G R I base _ Result.vu (runExec program script r) := by
  have L := hG.logic base
  unfold runExec
  split
  · rename_i exec engine _ _
    refine claims_bind (hG.claims_script hr _ _ _) fun ⟨value, vu⟩ h => ?_
    have hrecord : Claim G R I base _ (fun _ => vu) (recordExec exec value vu) := by
      cases value with
      | ok => exact h
      | error message => exact claims_bind (hG.claims_sample h _ _ _) fun _ h => L.exception _ _ h
    exact claims_bind hrecord fun _ h => h
  · exact hr
  · exact hr

theorem claims_iteration (program : ScenarioProgram) (script : Option Script) (base : List String)
    (vu : VuContext) (hvu : I base vu) :
    Claim G R I base _ Result.vu (do
      let (vu, started) ← runOnStart program script vu.beginIteration
      let r ← runSteps program script program.steps vu
      let r ← runExec program script { r with trace := started ++ r.trace }
      recordIteration r.vu
      return r) := by
  have L := hG.logic base
  have hbegin : I base vu.beginIteration := hG.congr hvu rfl
  refine claims_bind (claims_runOnStart L hbegin) fun ⟨vu, started⟩ h => ?_
  refine claims_bind (hG.flowLogic.runSteps (fun _ _ req _ h => hG.claims_runRequest h req) script _
    base h) fun r h => ?_
  refine claims_bind (hG.claims_runExec (r := { r with trace := started ++ r.trace }) h)
    fun r h => ?_
  have hrecord : Claim G R I base _ (fun _ => r.vu) (recordIteration r.vu) :=
    claims_bind (claims_ask _ h) fun elapsed h =>
      claims_tell (hG.samples (by rintro e (_ | ⟨_, _ | ⟨_, ⟨⟩⟩⟩) <;> exact ⟨_, _, _, rfl⟩) h) h
  exact claims_bind hrecord fun _ h => h

end Guarded

end Loadr.Flow
