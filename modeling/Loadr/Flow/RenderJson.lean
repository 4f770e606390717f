import Loadr.Flow.Template
import Loadr.Lib.Fallible

/-!
# JSON with templates

The string leaves of a JSON value may be templates.  `renderJson` parses and renders them as it
walks the value.  `CompiledJson` parses them ahead of time and keeps subtrees without expressions as
they are; rendering it does the same (`compiled_json_agrees`), down to the first error.

A leaf that consists of one expression stands for the JSON that its value parses to (`fromStr`).
The fields of an object have distinct names.
-/

namespace Loadr.Flow

inductive EngineError
  | config (message : String)
  | io (path source : String)
deriving DecidableEq

def parseTemplate (s what : String) : Except EngineError Template :=
  match Template.parse s with
  | .ok template => .ok template
  | .error e => .error (.config (what ++ ": " ++ e.message))

inductive CompiledJson
  | literal (value : Json)
  | string (template : Template)
  | splice (template : Template)
  | array (items : List CompiledJson)
  | object (fields : List (String × CompiledJson))

/-! ## Compiling -/

namespace CompiledJson

def isLiteral : CompiledJson → Bool
  | literal _ => true
  | _ => false

mutual

def compile (what : String) : Json → Except EngineError CompiledJson
  | .string source => do
    let template ← parseTemplate source what
    if template.isLiteral then return literal (.string source)
    else if template.parts.length = 1 then return splice template
    else return string template
  | .array items => do
    let compiled ← compileItems what items
    if compiled.all isLiteral then return literal (.array items) else return array compiled
  | .object fields => do
    let compiled ← compileFields what fields
    if compiled.all (·.2.isLiteral) then return literal (.object fields)
    else return object compiled
  | .null => return literal .null
  | .bool b => return literal (.bool b)
  | .number n => return literal (.number n)

def compileItems (what : String) : List Json → Except EngineError (List CompiledJson)
  | [] => return []
  | item :: items => do
    let compiled ← compile what item
    let rest ← compileItems what items
    return compiled :: rest

def compileFields (what : String) :
    List (String × Json) → Except EngineError (List (String × CompiledJson))
  | [] => return []
  | (key, value) :: fields => do
    let compiled ← compile what value
    let rest ← compileFields what fields
    return (key, compiled) :: rest

end

end CompiledJson

/-! ## Rendering -/

section Render

variable {σ ε : Type} (fromStr : String → Option Json)
  (renderTemplate : Template → Rendering σ ε String)

def spliced (rendered : String) : Json := (fromStr rendered).getD (.string rendered)

namespace CompiledJson

mutual

def render : CompiledJson → Rendering σ ε Json
  | literal value => return value
  | string template => do
    let rendered ← renderTemplate template
    return .string rendered
  | splice template => do
    let rendered ← renderTemplate template
    return spliced fromStr rendered
  | array items => do
    let rendered ← renderItems items
    return .array rendered
  | object fields => do
    let rendered ← renderFields fields
    return .object rendered

def renderItems : List CompiledJson → Rendering σ ε (List Json)
  | [] => return []
  | item :: items => do
    let rendered ← render item
    let rest ← renderItems items
    return rendered :: rest

def renderFields : List (String × CompiledJson) → Rendering σ ε (List (String × Json))
  | [] => return []
  | (key, value) :: fields => do
    let rendered ← render value
    let rest ← renderFields fields
    return (key, rendered) :: rest

end

end CompiledJson

variable (invalid : TemplateError → ε)

mutual

def renderJson : Json → Rendering σ ε Json
  | .string s =>
    match Template.parse s with
    | .error e => throw (invalid e)
    | .ok template =>
      if template.isLiteral then return .string s
      else do
        let rendered ← renderTemplate template
        if template.parts.length = 1 then return spliced fromStr rendered
        else return .string rendered
  | .array items => do
    let rendered ← renderJsonItems items
    return .array rendered
  | .object fields => do
    let rendered ← renderJsonFields fields
    return .object rendered
  | .null => return .null
  | .bool b => return .bool b
  | .number n => return .number n

def renderJsonItems : List Json → Rendering σ ε (List Json)
  | [] => return []
  | item :: items => do
    let rendered ← renderJson item
    let rest ← renderJsonItems items
    return rendered :: rest

def renderJsonFields : List (String × Json) → Rendering σ ε (List (String × Json))
  | [] => return []
  | (key, value) :: fields => do
    let rendered ← renderJson value
    let rest ← renderJsonFields fields
    return (key, rendered) :: rest

end

end Render

/-! ## String leaves -/

mutual

def Json.strings : Json → List String
  | .string s => [s]
  | .array items => itemStrings items
  | .object fields => fieldStrings fields
  | _ => []

def itemStrings : List Json → List String
  | [] => []
  | item :: items => Json.strings item ++ itemStrings items

def fieldStrings : List (String × Json) → List String
  | [] => []
  | (_, value) :: fields => Json.strings value ++ fieldStrings fields

end

def IsTemplate (s : String) : Prop := ∃ t, Template.parse s = .ok t

namespace CompiledJson

open Fallible (bind_ok_iff pure_ok_iff)

variable {what : String}

theorem parseTemplate_ok_iff {s : String} {t : Template} :
    parseTemplate s what = .ok t ↔ Template.parse s = .ok t := by
  unfold parseTemplate
  cases Template.parse s <;> simp

theorem compile_string_ok_iff {s : String} {c : CompiledJson} :
    compile what (.string s) = .ok c ↔ ∃ t, Template.parse s = .ok t ∧
      c = if t.isLiteral then literal (.string s)
        else if t.parts.length = 1 then splice t else string t := by
  simp only [compile, bind_ok_iff, parseTemplate_ok_iff]
  refine exists_congr fun t => and_congr_right fun _ => ?_
  split_ifs <;> exact pure_ok_iff

theorem compile_array_ok_iff {items : List Json} {c : CompiledJson} :
    compile what (.array items) = .ok c ↔ ∃ cs, compileItems what items = .ok cs ∧
      c = if cs.all isLiteral then literal (.array items) else array cs := by
  simp only [compile, bind_ok_iff]
  refine exists_congr fun cs => and_congr_right fun _ => ?_
  split_ifs <;> exact pure_ok_iff

theorem compile_object_ok_iff {fields : List (String × Json)} {c : CompiledJson} :
    compile what (.object fields) = .ok c ↔ ∃ cs, compileFields what fields = .ok cs ∧
      c = if cs.all (·.2.isLiteral) then literal (.object fields) else object cs := by
  simp only [compile, bind_ok_iff]
  refine exists_congr fun cs => and_congr_right fun _ => ?_
  split_ifs <;> exact pure_ok_iff

theorem compileItems_cons_ok_iff {item : Json} {items : List Json} {cs : List CompiledJson} :
    compileItems what (item :: items) = .ok cs ↔ ∃ c, compile what item = .ok c ∧
      ∃ rest, compileItems what items = .ok rest ∧ cs = c :: rest := by
  simp only [compileItems, bind_ok_iff, pure_ok_iff]

theorem compileFields_cons_ok_iff {key : String} {value : Json} {fields : List (String × Json)}
    {cs : List (String × CompiledJson)} :
    compileFields what ((key, value) :: fields) = .ok cs ↔ ∃ c, compile what value = .ok c ∧
      ∃ rest, compileFields what fields = .ok rest ∧ cs = (key, c) :: rest := by
  simp only [compileFields, bind_ok_iff, pure_ok_iff]

/-! ## What compiles -/

mutual

theorem compiles_iff : ∀ v : Json,
    (∃ c, compile what v = .ok c) ↔ ∀ s ∈ Json.strings v, IsTemplate s
  | .string s => by
    simp only [compile_string_ok_iff, Json.strings, List.mem_singleton, forall_eq, IsTemplate]
    constructor
    · rintro ⟨c, t, ht, -⟩
      exact ⟨t, ht⟩
    · rintro ⟨t, ht⟩
      exact ⟨_, t, ht, rfl⟩
  | .array items => by
    rw [Json.strings, ← compilesItems_iff items]
    simp only [compile_array_ok_iff]
    constructor
    · rintro ⟨c, cs, hcs, -⟩
      exact ⟨cs, hcs⟩
    · rintro ⟨cs, hcs⟩
      exact ⟨_, cs, hcs, rfl⟩
  | .object fields => by
    rw [Json.strings, ← compilesFields_iff fields]
    simp only [compile_object_ok_iff]
    constructor
    · rintro ⟨c, cs, hcs, -⟩
      exact ⟨cs, hcs⟩
    · rintro ⟨cs, hcs⟩
      exact ⟨_, cs, hcs, rfl⟩
  | .null | .bool _ | .number _ => by simp [compile, Json.strings, pure, Except.pure]

theorem compilesItems_iff : ∀ items : List Json,
    (∃ cs, compileItems what items = .ok cs) ↔ ∀ s ∈ itemStrings items, IsTemplate s
  | [] => by simp [compileItems, itemStrings, pure, Except.pure]
  | item :: items => by
    have hitem := compiles_iff item
    have hitems := compilesItems_iff items
    simp only [compileItems_cons_ok_iff, itemStrings, List.mem_append, or_imp, forall_and,
      ← hitem, ← hitems]
    constructor
    · rintro ⟨cs, c, hc, rest, hrest, -⟩
      exact ⟨⟨c, hc⟩, rest, hrest⟩
    · rintro ⟨⟨c, hc⟩, rest, hrest⟩
      exact ⟨_, c, hc, rest, hrest, rfl⟩

theorem compilesFields_iff : ∀ fields : List (String × Json),
    (∃ cs, compileFields what fields = .ok cs) ↔ ∀ s ∈ fieldStrings fields, IsTemplate s
  | [] => by simp [compileFields, fieldStrings, pure, Except.pure]
  | (key, value) :: fields => by
    have hvalue := compiles_iff value
    have hfields := compilesFields_iff fields
    simp only [compileFields_cons_ok_iff, fieldStrings, List.mem_append, or_imp, forall_and,
      ← hvalue, ← hfields]
    constructor
    · rintro ⟨cs, c, hc, rest, hrest, -⟩
      exact ⟨⟨c, hc⟩, rest, hrest⟩
    · rintro ⟨⟨c, hc⟩, rest, hrest⟩
      exact ⟨_, c, hc, rest, hrest, rfl⟩

end

/-! ## Rendering what was compiled -/

section

variable {σ ε : Type} {fromStr : String → Option Json}
  {renderTemplate : Template → Rendering σ ε String} {invalid : TemplateError → ε}

/-- A value is kept as it is, if at all. -/
theorem eq_literal {v : Json} {c : CompiledJson} (h : compile what v = .ok c)
    (hc : c.isLiteral = true) : c = literal v := by
  cases v with
  | string s =>
    obtain ⟨t, -, rfl⟩ := compile_string_ok_iff.1 h
    split_ifs at hc ⊢ <;> first | rfl | cases hc
  | array items =>
    obtain ⟨cs, -, rfl⟩ := compile_array_ok_iff.1 h
    split_ifs at hc ⊢ <;> first | rfl | cases hc
  | object fields =>
    obtain ⟨cs, -, rfl⟩ := compile_object_ok_iff.1 h
    split_ifs at hc ⊢ <;> first | rfl | cases hc
  | _ =>
    cases h
    rfl

theorem renderItems_of_literal {items : List Json} {cs : List CompiledJson}
    (h : compileItems what items = .ok cs) (hall : cs.all isLiteral = true) :
    renderItems fromStr renderTemplate cs = pure items := by
  induction items generalizing cs with
  | nil =>
    cases h
    rfl
  | cons item items ih =>
    obtain ⟨c, hc, rest, hrest, rfl⟩ := compileItems_cons_ok_iff.1 h
    simp only [List.all_cons, Bool.and_eq_true] at hall
    rw [renderItems, eq_literal hc hall.1, render, pure_bind, ih hrest hall.2, pure_bind]

theorem renderFields_of_literal {fields : List (String × Json)} {cs : List (String × CompiledJson)}
    (h : compileFields what fields = .ok cs) (hall : cs.all (·.2.isLiteral) = true) :
    renderFields fromStr renderTemplate cs = pure fields := by
  induction fields generalizing cs with
  | nil =>
    cases h
    rfl
  | cons field fields ih =>
    obtain ⟨c, hc, rest, hrest, rfl⟩ := compileFields_cons_ok_iff.1 h
    simp only [List.all_cons, Bool.and_eq_true] at hall
    rw [renderFields, eq_literal hc hall.1, render, pure_bind, ih hrest hall.2, pure_bind]

mutual

theorem render_eq_renderJson : ∀ {v c}, compile what v = .ok c →
    c.render fromStr renderTemplate = renderJson fromStr renderTemplate invalid v
  | .string s, c, h => by
    obtain ⟨t, ht, rfl⟩ := compile_string_ok_iff.1 h
    simp only [renderJson, ht]
    split_ifs <;> rfl
  | .array items, c, h => by
    obtain ⟨cs, hcs, rfl⟩ := compile_array_ok_iff.1 h
    rw [renderJson, ← renderItems_eq_renderJsonItems hcs]
    split_ifs with hall
    · rw [renderItems_of_literal hcs hall, pure_bind, render]
    · rw [render]
  | .object fields, c, h => by
    obtain ⟨cs, hcs, rfl⟩ := compile_object_ok_iff.1 h
    rw [renderJson, ← renderFields_eq_renderJsonFields hcs]
    split_ifs with hall
    · rw [renderFields_of_literal hcs hall, pure_bind, render]
    · rw [render]
  | .null, c, h => by cases h; rfl
  | .bool b, c, h => by cases h; rfl
  | .number n, c, h => by cases h; rfl

theorem renderItems_eq_renderJsonItems : ∀ {items cs},
    compileItems what items = .ok cs →
    renderItems fromStr renderTemplate cs = renderJsonItems fromStr renderTemplate invalid items
  | [], _, h => by cases h; rfl
  | item :: items, cs, h => by
    obtain ⟨c, hc, rest, hrest, rfl⟩ := compileItems_cons_ok_iff.1 h
    rw [renderItems, renderJsonItems, render_eq_renderJson hc, renderItems_eq_renderJsonItems hrest]

theorem renderFields_eq_renderJsonFields : ∀ {fields : List (String × Json)}
    {cs : List (String × CompiledJson)}, compileFields what fields = .ok cs →
    renderFields fromStr renderTemplate cs = renderJsonFields fromStr renderTemplate invalid fields
  | [], _, h => by cases h; rfl
  | (key, value) :: fields, cs, h => by
    obtain ⟨c, hc, rest, hrest, rfl⟩ := compileFields_cons_ok_iff.1 h
    rw [renderFields, renderJsonFields, render_eq_renderJson hc,
      renderFields_eq_renderJsonFields hrest]

end

end

/-- A value compiles unless one of its string leaves is no template, and then renders as it would
have directly: with the same result or first error, the same state of the resolver, and the same
expressions asked for in the same order. -/
theorem compiled_json_agrees {σ ε : Type} (fromStr : String → Option Json)
    (invalid : TemplateError → ε) (resolve : String → Rendering σ ε String) (what : String)
    (v : Json) :
    ((∃ e, compile what v = .error e) ↔ ∃ s ∈ Json.strings v, ∃ e, Template.parse s = .error e) ∧
    ∀ c, compile what v = .ok c → ∀ s : σ, ∀ asked : List String,
      (c.render fromStr (Template.render (recorded resolve))).run.run (s, asked) =
        (renderJson fromStr (Template.render (recorded resolve)) invalid v).run.run (s, asked) := by
  constructor
  · have hfails : ∀ {α δ : Type} (x : Except δ α), (∃ e, x = .error e) ↔ ¬ ∃ a, x = .ok a := by
      intro α δ x
      cases x <;> simp
    rw [hfails, compiles_iff]
    simp only [not_forall, IsTemplate, exists_prop, hfails]
  · intro c hc s asked
    rw [render_eq_renderJson hc]

end CompiledJson

end Loadr.Flow
