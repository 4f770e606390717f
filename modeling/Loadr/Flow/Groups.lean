import Loadr.Executor.Pool
import Loadr.Flow.Composition

/-!
# Group tags

As long as the scripts leave the stack as they find it, every sample carries the path of the steps
around its own (`runIteration_tagged`).

The executor may drop an iteration where it awaits something, and the name of a group around that
point then stays on the stack.  If iterations are dropped outside of groups only, the stack is empty
whenever an iteration starts (`History.groups_eq_nil`).
-/

namespace Loadr.Flow

open Dialogue

/-! ## Outputs under a path -/

/-- A sample carries the given path and, after it, its scope. -/
def Emission.Tagged (base : List String) : Emission → Prop
  | .sample s => s.groups = base ++ s.scope
  | _ => True

/-- Samples are tagged, also those of a dropped iteration, which leaves the stack of its point. -/
def Output.Tagged (base : List String) : Output → Prop
  | .emit emissions => ∀ e ∈ emissions, e.Tagged base
  | .await point => point.vu.groups = base ++ point.scope ∧
      ∀ elapsed, ∀ e ∈ point.onDrop elapsed, e.Tagged base
  | _ => True

variable {base : List String} {o : Output} {vu : VuContext} {script : Option Script}
  {program : ScenarioProgram} {t : Transcript}

theorem Emission.Tagged.within {name : String} {e : Emission} (h : e.Tagged (base ++ [name])) :
    (e.within name).Tagged base := by
  cases e with
  | sample s => simpa [Emission.Tagged, Emission.within] using h
  | _ => trivial

theorem Output.Tagged.within {name : String} (h : o.Tagged (base ++ [name])) :
    (o.within name).Tagged base := by
  cases o with
  | emit emissions =>
    intro _ he
    obtain ⟨e, hmem, rfl⟩ := List.mem_map.1 he
    exact (h e hmem).within
  | await point =>
    refine ⟨by simpa using h.1, fun elapsed _ he => ?_⟩
    obtain ⟨e, hmem, rfl⟩ := List.mem_map.1 he
    exact (h.2 elapsed e hmem).within
  | _ => trivial

/-- A script that ran has left the group stack as it found it. -/
def Effect.Balanced {α : Type} (effect : Effect α) : Prop := effect.popped = 0 ∧ effect.pushed = []

def Query.Balanced : (q : Query) → q.Answer → Prop
  | .prepare _, effect => Effect.Balanced effect
  | .script _ _, effect => Effect.Balanced effect
  | .render _, effect => Effect.Balanced effect
  | .items _, effect => Effect.Balanced effect
  | _, _ => True

theorem affected_groups {α : Type} {effect : Effect α} (h : effect.Balanced) :
    (vu.affected script effect).groups = vu.groups := by
  cases script with
  | none => rfl
  | some engine => simp [VuContext.affected, h.1, h.2]

theorem tagged_requestMetrics (base : List String) (request : PreparedRequest)
    (response : ProtocolResponse) :
    ∀ e ∈ emitRequestMetrics base request response ++ [.endRequest], e.Tagged base := by
  intro e he
  simp only [emitRequestMetrics, List.mem_append, List.mem_map, List.mem_singleton] at he
  rcases he with ⟨m, -, rfl⟩ | rfl
  · simp [Emission.Tagged]
  · trivial

/-- The interpreter keeps the group stack, and what it puts out on the way is tagged with it. -/
theorem guarded_tagged : Guarded Query.Balanced Output.Tagged fun base vu => vu.groups = base where
  congr h hvu := hvu.trans h
  script _ he hvu := (affected_groups he).trans hvu
  render _ he hvu := (affected_groups he).trans hvu
  items _ he hvu := (affected_groups he).trans hvu
  prepare _ he hvu := (affected_groups he).trans hvu
  quiet {base o} h := by
    cases o with
    | emit =>
      cases h
      simp [Output.Tagged, Emission.Tagged]
    | await => exact h.elim
    | _ => trivial
  samples h hvu e he := by
    obtain ⟨metric, value, tags, rfl⟩ := h e he
    simp [Emission.Tagged, VuContext.sample, hvu]
  ended prepared response hvu := hvu ▸ tagged_requestMetrics _ prepared response
  await h hvu := by
    refine ⟨by simpa using hvu, fun elapsed => ?_⟩
    rcases h elapsed with he | ⟨prepared, he⟩
    · simp [he]
    · simp only [he]
      exact hvu ▸ tagged_requestMetrics _ prepared _
  push name hvu := by simp [VuContext.pushGroup, hvu]
  pop hvu := by simp [VuContext.popGroup, hvu]
  within h := h.within
  dropped elapsed h := h.2 elapsed

/-! ## Iterations -/

/-- The scripts of an iteration leave the group stack as they find it. -/
def Balanced (t : Transcript) : Prop := ∀ q a, .asked q a ∈ t → Query.Balanced q a

/-- Every sample carries exactly the path of the group and random steps around its step. -/
def Lexical (t : Transcript) : Prop :=
  ∀ elapsed s, .sample s ∈ emitted elapsed t → s.groups = s.scope

theorem tagged_of_emitted (h : ∀ o, .told o ∈ t ∨ .cut o ∈ t → o.Tagged base) {elapsed : F64}
    {e : Emission} (he : e ∈ emitted elapsed t) : e.Tagged base := by
  obtain ⟨entry, hentry, he⟩ := List.mem_flatMap.1 he
  unfold emittedAt at he
  split at he
  · exact h _ (.inl hentry) _ he
  · exact (h _ (.inr hentry)).2 elapsed _ he
  · simp at he

theorem runIteration_tagged (hvu : vu.groups = base) {r : Option Result}
    (hruns : Runs Output.IsAwait (runIteration program script vu) t r) (ht : Balanced t) :
    (∀ o, .told o ∈ t ∨ .cut o ∈ t → o.Tagged base) ∧ ∀ a ∈ r, a.vu.groups = base :=
  have h : (runIteration program script vu).Safe Query.Balanced (Output.Tagged base)
      fun a => a.vu.groups = base :=
    ⟨trivial, guarded_tagged.claims_iteration program script base vu hvu⟩
  h.of_runs hruns ht

/-! ## Histories of a virtual user -/

/-- The scripts keep the group stack, and if the iteration is dropped, then not inside a group or
random step of the flow around parallel branches. -/
structure Orderly (t : Transcript) : Prop where
  balanced : Balanced t
  outside : ∀ point, .cut (.await point) ∈ t → point.scope = []

/-- The contexts with which a virtual user starts an iteration: a new one, what the last iteration
returned, or what it left where the executor dropped it. -/
inductive History (program : ScenarioProgram) (script : Option Script) (ok : Transcript → Prop) :
    VuContext → Prop
  | new : History program script ok .new
  | completed {vu : VuContext} {t : Transcript} {r : Result} (h : History program script ok vu)
      (hruns : Runs Output.IsAwait (runIteration program script vu) t (some r)) (ht : ok t) :
      History program script ok r.vu
  | dropped {vu : VuContext} {t : Transcript} {point : Await} (h : History program script ok vu)
      (hruns : Runs Output.IsAwait (runIteration program script vu) t none) (ht : ok t)
      (hcut : .cut (.await point) ∈ t) : History program script ok point.vu

theorem History.groups_eq_nil (h : History program script Orderly vu) : vu.groups = [] := by
  induction h with
  | new => rfl
  | completed _ hruns ht ih => exact (runIteration_tagged ih hruns ht.balanced).2 _ rfl
  | @dropped _ _ point _ hruns ht hcut ih =>
    have htagged := (runIteration_tagged ih hruns ht.balanced).1 _ (.inr hcut)
    simpa [ht.outside point hcut] using htagged.1

/-- In a history in which scripts keep the group stack and iterations are dropped outside of groups
only, the stack is empty when an iteration starts, and the samples of the iteration carry exactly
the path of the steps around theirs. -/
theorem groups_lexical (program : ScenarioProgram) (script : Option Script) {vu : VuContext}
    (h : History program script Orderly vu) :
    vu.groups = [] ∧ ∀ t r, Runs Output.IsAwait (runIteration program script vu) t r →
      Balanced t → Lexical t :=
  ⟨h.groups_eq_nil, fun _ _ hruns ht _ _ hs =>
    tagged_of_emitted (runIteration_tagged h.groups_eq_nil hruns ht).1 hs⟩

def checkoutFlow : ScenarioProgram :=
  let request (name : String) : CompiledStep := .request ⟨name, "http", "GET", [], [], []⟩
  { name := "shop", steps := [request "home", .group "checkout" [request "pay"]] }

def answers : (q : Query) → Option q.Answer
  | .prepare req => some ⟨.ready req.displayName, fun _ => none, 0, [], []⟩
  | .handled _ => some true
  | .execute _ => some {}
  | .elapsed => some (.fin 0)
  | _ => none

/-- The iteration is dropped at a point with this scope. -/
def Output.awaitsIn (scope : List String) : Output → Bool
  | .await point => point.scope = scope
  | _ => false

theorem isAwait_of_awaitsIn {scope : List String} (o : Output) (h : o.awaitsIn scope = true) :
    o.IsAwait := by
  cases o with
  | await point => trivial
  | _ => simp [Output.awaitsIn] at h

def cutPoint (t : Transcript) : Option Await :=
  t.findSome? fun
    | .cut (.await point) => some point
    | _ => none

theorem cut_of_cutPoint {point : Await} (h : cutPoint t = some point) :
    .cut (.await point) ∈ t := by
  obtain ⟨entry, hmem, h⟩ := List.exists_of_findSome?_eq_some h
  split at h
  · cases h
    exact hmem
  · simp at h

theorem balanced_answers {q : Query} {a : q.Answer} (h : answers q = some a) :
    Query.Balanced q a := by
  cases q with
  | prepare req => cases h; exact ⟨rfl, rfl⟩
  | script | render | items => cases h
  | _ => trivial

def droppedOutside (t : Transcript) : Bool :=
  t.all fun
    | .cut (.await point) => point.scope.isEmpty
    | _ => true

theorem scope_of_droppedOutside (h : droppedOutside t = true) {point : Await}
    (hcut : .cut (.await point) ∈ t) : point.scope = [] := by
  simpa using List.all_eq_true.1 h _ hcut

theorem groups_lexical_dropped :
    ∃ vu, History checkoutFlow none Orderly vu ∧ vu.iteration = 1 ∧ vu.groups = [] ∧
      ∀ t r, Runs Output.IsAwait (runIteration checkoutFlow none vu) t r → Balanced t → Lexical t := by
  obtain ⟨t, r, hruns, hanswers, hp⟩ := exists_runs_of_trial (W := Output.IsAwait)
    (d := runIteration checkoutFlow none .new) answers (Output.awaitsIn []) isAwait_of_awaitsIn
    (fun t r => r.isNone && (cutPoint t).any (·.vu.iteration = 1) && droppedOutside t)
    (by decide +kernel)
  simp only [Bool.and_eq_true, Option.isNone_iff_eq_none] at hp
  obtain ⟨⟨rfl, hcut⟩, houtside⟩ := hp
  obtain ⟨point, hpoint, hiteration⟩ := (Option.any_eq_true _ _).1 hcut
  have horderly : Orderly t :=
    ⟨fun q a h => balanced_answers (hanswers q a h), fun _ => scope_of_droppedOutside houtside⟩
  have hhistory := History.new.dropped hruns horderly (cut_of_cutPoint hpoint)
  exact ⟨point.vu, hhistory, by simpa using hiteration, groups_lexical checkoutFlow none hhistory⟩

/-! ## Slots of the allocated pool -/

/-- A slot of the allocated pool, with the context of its virtual user once it has made it. -/
structure Tenant where
  slot : Executor.Slot := {}
  vu : Option VuContext := none

/-- The steps of slot `i`: outside of an iteration they are those of the pool, and a running
iteration ends by itself or is dropped. -/
inductive Tenant.Step (program : ScenarioProgram) (script : Option Script) (ok : Transcript → Prop)
    (i : ℕ) : Tenant → Tenant → Prop
  | outside {slot slot' : Executor.Slot} {vu : Option VuContext} {env : Executor.Env} {allowed : ℕ}
      {taken : Bool} (hstage : slot.stage ≠ .running)
      (h : slot.step env allowed i = some (slot', taken)) :
      Step program script ok i ⟨slot, vu⟩ ⟨slot', if taken then some .new else vu⟩
  | iterated {slot slot' : Executor.Slot} {vu : VuContext} {env : Executor.Env} {allowed : ℕ}
      {t : Transcript} {r : Result} (hstage : slot.stage = .running)
      (hruns : Runs Output.IsAwait (runIteration program script vu) t (some r)) (ht : ok t)
      (henv : env.cancelled = false ∧ env.deallocated = false ∧
        env.keepGoing = decide (r.outcome = .completed))
      (h : slot.step env allowed i = some (slot', false)) :
      Step program script ok i ⟨slot, some vu⟩ ⟨slot', some r.vu⟩
  | dropped {slot slot' : Executor.Slot} {vu : VuContext} {env : Executor.Env} {allowed : ℕ}
      {t : Transcript} {point : Await} (hstage : slot.stage = .running)
      (hruns : Runs Output.IsAwait (runIteration program script vu) t none) (ht : ok t)
      (hcut : .cut (.await point) ∈ t) (henv : env.cancelled = true ∨ env.deallocated = true)
      (h : slot.step env allowed i = some (slot', false)) :
      Step program script ok i ⟨slot, some vu⟩ ⟨slot', some point.vu⟩

/-- Every context of a slot has a history. -/
theorem Tenant.history {ok : Transcript → Prop} {i : ℕ} {tenant : Tenant}
    (h : Relation.ReflTransGen (Tenant.Step program script ok i) {} tenant) :
    ∀ vu ∈ tenant.vu, History program script ok vu := by
  induction h with
  | refl => simp
  | tail _ hstep ih =>
    cases hstep with
    | @outside slot slot' vu env allowed taken =>
      cases taken with
      | true => rintro _ ⟨⟩; exact .new
      | false => exact ih
    | iterated _ hruns ht => rintro _ ⟨⟩; exact (ih _ rfl).completed hruns ht
    | dropped _ hruns ht hcut => rintro _ ⟨⟩; exact (ih _ rfl).dropped hruns ht hcut

def Emission.isSample : Emission → Bool
  | .sample _ => true
  | _ => false

theorem not_lexical_of_groups (hvu : vu.groups ≠ []) :
    ∃ t r, Runs Output.IsAwait (runIteration checkoutFlow none vu) t r ∧ Balanced t ∧
      ¬ Lexical t := by
  obtain ⟨t, r, hruns, hanswers, hp⟩ := exists_runs_of_trial (W := Output.IsAwait)
    (d := runIteration checkoutFlow none vu) answers (fun _ => false) (by simp)
    (fun t _ => (emitted 0 t).any Emission.isSample) rfl
  have hbalanced : Balanced t := fun q a h => balanced_answers (hanswers q a h)
  refine ⟨t, r, hruns, hbalanced, fun hlexical => ?_⟩
  obtain ⟨e, he, hsample⟩ := List.any_eq_true.1 hp
  cases e with
  | sample s =>
    -- The sample carries the stack of the start and its scope.
    have hs : s.groups = vu.groups ++ s.scope :=
      tagged_of_emitted (runIteration_tagged rfl hruns hbalanced).1 he
    rw [hlexical 0 s he] at hs
    exact hvu (by simpa using hs)
  | _ => simp [Emission.isSample] at hsample

/-- A slot is deallocated while its virtual user is in a group, and allocated again: the group is
still on the stack, and the next iteration tags the request before the group with it. -/
theorem group_outlives_iteration :
    ∃ tenant vu, Relation.ReflTransGen (Tenant.Step checkoutFlow none Balanced 0) {} tenant ∧
      tenant.slot.stage = .running ∧ tenant.vu = some vu ∧ vu.groups = ["checkout"] ∧
      ∃ t r, Runs Output.IsAwait (runIteration checkoutFlow none vu) t r ∧ Balanced t ∧
        ¬ Lexical t := by
  obtain ⟨t, r, hruns, hanswers, hp⟩ := exists_runs_of_trial (W := Output.IsAwait)
    (d := runIteration checkoutFlow none .new) answers (Output.awaitsIn ["checkout"])
    isAwait_of_awaitsIn (fun t r => r.isNone && (cutPoint t).any (·.vu.groups = ["checkout"]))
    (by decide +kernel)
  obtain ⟨hr, hcut⟩ := Bool.and_eq_true_iff.1 hp
  obtain rfl : r = none := by simpa using hr
  obtain ⟨point, hpoint, hgroups⟩ := (Option.any_eq_true _ _).1 hcut
  have hgroups : point.vu.groups = ["checkout"] := by simpa using hgroups
  have hbalanced : Balanced t := fun q a h => balanced_answers (hanswers q a h)
  refine ⟨⟨⟨.running, true⟩, some point.vu⟩, point.vu, ?_, rfl, rfl, hgroups,
    not_lexical_of_groups (by simp [hgroups])⟩
  have hunpause : Tenant.Step checkoutFlow none Balanced 0 {} ⟨⟨.unpausing, false⟩, none⟩ :=
    .outside (by decide) (show Executor.Slot.step {} 1 0 {} = some (⟨.unpausing, false⟩, false)
      from rfl)
  have hrun : Tenant.Step checkoutFlow none Balanced 0 ⟨⟨.unpausing, false⟩, none⟩
      ⟨⟨.running, true⟩, some .new⟩ :=
    .outside (by decide) (show Executor.Slot.step {} 1 0 ⟨.unpausing, false⟩ =
      some (⟨.running, true⟩, true) from rfl)
  have hdrop : Tenant.Step checkoutFlow none Balanced 0 ⟨⟨.running, true⟩, some .new⟩
      ⟨⟨.looping, true⟩, some point.vu⟩ :=
    .dropped rfl hruns hbalanced (cut_of_cutPoint hpoint) (.inr rfl)
      (show Executor.Slot.step { deallocated := true } 0 0 ⟨.running, true⟩ =
        some (⟨.looping, true⟩, false) from rfl)
  have hagain : Tenant.Step checkoutFlow none Balanced 0 ⟨⟨.looping, true⟩, some point.vu⟩
      ⟨⟨.unpausing, true⟩, some point.vu⟩ :=
    .outside (by decide) (show Executor.Slot.step {} 1 0 ⟨.looping, true⟩ =
      some (⟨.unpausing, true⟩, false) from rfl)
  have hrerun : Tenant.Step checkoutFlow none Balanced 0 ⟨⟨.unpausing, true⟩, some point.vu⟩
      ⟨⟨.running, true⟩, some point.vu⟩ :=
    .outside (by decide) (show Executor.Slot.step {} 1 0 ⟨.unpausing, true⟩ =
      some (⟨.running, true⟩, false) from rfl)
  exact ((((Relation.ReflTransGen.single hunpause).tail hrun).tail hdrop).tail hagain).tail hrerun

end Loadr.Flow
