import Loadr.Flow.Grammar
import Loadr.Request.Host

/-!
# Escapes in JSON

An escape `$${` in a template stands for the text `${`.  A string leaf of a JSON value is rendered
as a template too, but a leaf without expressions is passed on as it was written, with its escapes
in it.  `leaf_escapes_iff` says that this is the only difference, for the three functions that
render JSON.
-/

namespace Loadr.Flow

open List

/-! ## Literal text -/

def Part.textWith (value : String → String) : Part → List Char
  | .lit text => text.toList
  | .expr e => (value e).toList

def textWith (value : String → String) (parts : List Part) : List Char :=
  parts.flatMap (Part.textWith value)

def literalText (parts : List Part) : List Char := textWith (fun _ => "") parts

def Token.literal : Token → List Char
  | .char c => [c]
  | .escape => ['$', '{']
  | .expr _ => []

section

variable {text rest lit : List Char} {parts : List Part} {token : Token} {tokens : List Token}

theorem literalText_pushLit : literalText (pushLit parts lit) = literalText parts ++ lit := by
  unfold pushLit
  split_ifs with h
  · rw [h, append_nil]
  · simp [literalText, textWith, Part.textWith]

theorem literalText_add : literalText (token.add (parts, lit)).1 ++ (token.add (parts, lit)).2 =
    literalText parts ++ lit ++ token.literal := by
  cases token with
  | char | escape => simp [Token.add, Token.literal]
  | expr content =>
    have hexpr : literalText (pushLit parts lit ++ [.expr (String.ofList (trim content))]) =
        literalText (pushLit parts lit) := by
      simp [literalText, textWith, Part.textWith]
    simp only [Token.add, Token.literal, append_nil, hexpr, literalText_pushLit]

theorem foldl_add {β : Type} {f : List Part × List Char → List β} {g : Token → List β}
    (h : ∀ parts lit token, f (token.add (parts, lit)) = f (parts, lit) ++ g token)
    (state : List Part × List Char) :
    f (tokens.foldl Token.add state) = f state ++ tokens.flatMap g := by
  induction tokens generalizing state with
  | nil => rw [foldl_nil, flatMap_nil, append_nil]
  | cons token tokens ih => rw [foldl_cons, ih, h, flatMap_cons, append_assoc]

theorem literalText_assemble : literalText (assemble tokens) = tokens.flatMap Token.literal := by
  rw [assemble, literalText_pushLit]
  exact foldl_add (f := fun state => literalText state.1 ++ state.2)
    (fun _ _ _ => literalText_add) ([], [])

/-! ## Templates without expressions -/

def Token.exprs : Token → List String
  | .expr content => [String.ofList (trim content)]
  | _ => []

def exprsOf (parts : List Part) : List String :=
  parts.filterMap fun
    | .lit _ => none
    | .expr e => some e

theorem exprsOf_pushLit : exprsOf (pushLit parts lit) = exprsOf parts := by
  unfold pushLit
  split_ifs
  · rfl
  · simp [exprsOf]

theorem exprsOf_add : exprsOf (token.add (parts, lit)).1 = exprsOf parts ++ token.exprs := by
  cases token with
  | char | escape => exact (append_nil _).symm
  | expr content =>
    have hexpr : ∀ before, exprsOf (before ++ [.expr (String.ofList (trim content))]) =
        exprsOf before ++ [String.ofList (trim content)] := by
      intro before
      simp [exprsOf]
    simp only [Token.add, hexpr, exprsOf_pushLit, Token.exprs]

theorem exprsOf_assemble : exprsOf (assemble tokens) = tokens.flatMap Token.exprs := by
  rw [assemble, exprsOf_pushLit]
  exact foldl_add (f := fun state => exprsOf state.1) (fun _ _ _ => exprsOf_add) ([], [])

theorem isLiteral_iff {t : Template} : t.isLiteral = true ↔ exprsOf t.parts = [] := by
  simp only [Template.isLiteral, all_eq_true, exprsOf, filterMap_eq_nil_iff]
  refine forall₂_congr fun p _ => ?_
  cases p <;> simp

def IsText (tokens : List Token) : Prop := ∀ token ∈ tokens, token.exprs = []

theorem isLiteral_assemble_iff {s : String} :
    (Template.mk (assemble tokens) s).isLiteral = true ↔ IsText tokens := by
  rw [isLiteral_iff, exprsOf_assemble, flatMap_eq_nil_iff]
  rfl

def Token.isEscape : Token → Bool
  | .escape => true
  | _ => false

theorem length_sourceOf (h : IsText tokens) : (sourceOf tokens).length =
    (tokens.flatMap Token.literal).length + tokens.countP Token.isEscape := by
  induction tokens with
  | nil => rfl
  | cons token tokens ih =>
    have hih := ih fun token ht => h token (mem_cons_of_mem _ ht)
    have htoken := h token mem_cons_self
    simp only [sourceOf, flatMap_cons, length_append, countP_cons] at hih ⊢
    rw [hih]
    cases token with
    | char | escape => simp [Token.source, Token.literal, Token.isEscape]; omega
    | expr content => cases htoken

theorem literal_eq_sourceOf_iff (h : IsText tokens) :
    tokens.flatMap Token.literal = sourceOf tokens ↔ ∀ token ∈ tokens, token.isEscape = false := by
  constructor
  · intro heq
    have hlength := length_sourceOf h
    rw [heq] at hlength
    have hzero : tokens.countP Token.isEscape = 0 := by omega
    intro token ht
    simpa using countP_eq_zero.1 hzero token ht
  · intro hescape
    refine flatMap_congr fun token ht => ?_
    cases token with
    | char c => rfl
    | escape => cases hescape _ ht
    | expr content => cases h _ ht

/-- In a text without expressions, what looks like an escape was read as one. -/
theorem Scans.isEscape_iff (h : Scans text tokens []) (ht : IsText tokens) :
    (∃ token ∈ tokens, token.isEscape = true) ↔ ['$', '$', '{'] <:+: text := by
  constructor
  · rintro ⟨token, hmem, htoken⟩
    cases token with
    | escape =>
      obtain ⟨before, after, rfl⟩ := List.append_of_mem hmem
      refine ⟨sourceOf before, sourceOf after, ?_⟩
      rw [h.source_eq, List.append_nil]
      simp [sourceOf, Token.source]
    | char | expr => cases htoken
  · intro hin
    generalize hrest : ([] : List Char) = rest at h
    induction h with
    | nil =>
      subst hrest
      cases List.infix_nil.1 hin
    | cons hread _ ih =>
      cases hread with
      | char hopens =>
        rcases List.infix_cons_iff.1 hin with ⟨tail, htail⟩ | hin
        · exact absurd ⟨tail, .inr htail.symm⟩ hopens
        · obtain ⟨token, hmem, htoken⟩ := ih (fun token hm => ht token (.tail _ hm)) hin hrest
          exact ⟨token, .tail _ hmem, htoken⟩
      | escape => exact ⟨_, .head _, rfl⟩
      | expr hb hblank => cases ht _ (.head _)

theorem literalText_eq_iff {s : String} {t : Template} (h : Template.parse s = .ok t)
    (hl : t.isLiteral = true) :
    String.ofList (literalText t.parts) = s ↔ hasText s "$$\x7b" = false := by
  obtain ⟨tokens, hscan, rfl⟩ := parse_ok_iff.1 h
  have ht := isLiteral_assemble_iff.1 hl
  have hsource := hscan.source_eq
  rw [append_nil] at hsource
  rw [← String.toList_inj, String.toList_ofList, literalText_assemble, hsource,
    literal_eq_sourceOf_iff ht, hasText, decide_eq_false_iff_not]
  change _ ↔ ¬ ['$', '$', '{'] <:+: s.toList
  rw [← hscan.isEscape_iff ht]
  simp

end

/-! ## Rendering a leaf -/

section

variable {σ ε : Type} {s : String} {t : Template}

theorem foldlM_renderPart_pure {resolve : String → Rendering σ ε String}
    {value : String → String} : ∀ {parts},
      (∀ e ∈ exprsOf parts, resolve e = pure (value e)) → ∀ out,
      parts.foldlM (renderPart resolve) out = pure (out ++ String.ofList (textWith value parts))
  | [], _, out => by simp [textWith]
  | .lit text :: parts, h, out => by
    have ih := foldlM_renderPart_pure (show ∀ e ∈ exprsOf parts, _ from h)
    rw [foldlM_cons, renderPart, pure_bind, ih]
    simp [textWith, Part.textWith, String.append_assoc]
  | .expr e :: parts, h, out => by
    have ih := foldlM_renderPart_pure (show ∀ e ∈ exprsOf parts, _ from fun e he => h e (.tail _ he))
    rw [foldlM_cons, renderPart, h e (.head _), pure_bind, pure_bind, ih]
    simp [textWith, Part.textWith, String.append_assoc]

theorem render_pure {resolve : String → Rendering σ ε String} {value : String → String}
    (h : ∀ e ∈ exprsOf t.parts, resolve e = pure (value e)) :
    t.render resolve = pure (String.ofList (textWith value t.parts)) := by
  rw [Template.render, foldlM_renderPart_pure h, String.empty_append]

theorem render_literal (resolve : String → Rendering σ ε String) (hl : t.isLiteral = true) :
    t.render resolve = pure (String.ofList (literalText t.parts)) := by
  refine render_pure fun e he => ?_
  rw [isLiteral_iff.1 hl] at he
  cases he

/-- The JSON that the rendered text of a leaf stands for: that of a single expression is parsed. -/
def leafJson (fromStr : String → Option Json) (t : Template) (rendered : String) : Json :=
  match t.parts with
  | [.expr _] => spliced fromStr rendered
  | _ => .string rendered

def renderLeaf (fromStr : String → Option Json) (resolve : String → Rendering σ ε String)
    (t : Template) : Rendering σ ε Json :=
  leafJson fromStr t <$> t.render resolve

/-- The resolver of `renderJsonValue`, which may not know an expression. -/
def orUnresolved (resolve : String → StateM σ (Option String)) (expr : String) :
    Rendering σ TemplateError String :=
  ExceptT.mk do
    match ← resolve expr with
    | some value => return .ok value
    | none => return .error (.unresolved expr)

def renderJsonValue (fromStr : String → Option Json) (resolve : String → StateM σ (Option String))
    (v : Json) : Rendering σ TemplateError Json :=
  renderJson fromStr (Template.render (orUnresolved resolve)) id v

variable {fromStr : String → Option Json} {resolve : String → Rendering σ ε String}
  {invalid : TemplateError → ε}

theorem leafJson_of_isLiteral (hl : t.isLiteral = true) (rendered : String) :
    leafJson fromStr t rendered = .string rendered := by
  unfold leafJson
  split
  · next heq =>
    rw [isLiteral_iff, heq] at hl
    cases hl
  · rfl

theorem leafJson_of_not_isLiteral (hl : t.isLiteral = false) (rendered : String) :
    leafJson fromStr t rendered =
      if t.parts.length = 1 then spliced fromStr rendered else .string rendered := by
  obtain ⟨parts, source⟩ := t
  match parts, hl with
  | [.expr _], _ => rfl
  | [.lit _], hl => cases hl
  | [], _ => rfl
  | _ :: _ :: _, _ => simp [leafJson]

theorem renderLeaf_of_isLiteral (hl : t.isLiteral = true) :
    renderLeaf fromStr resolve t = pure (.string (String.ofList (literalText t.parts))) := by
  rw [renderLeaf, render_literal resolve hl, map_pure, leafJson_of_isLiteral hl]

theorem renderJson_leaf_of_isLiteral (h : Template.parse s = .ok t) (hl : t.isLiteral = true) :
    renderJson fromStr (Template.render resolve) invalid (.string s) = pure (.string s) := by
  simp only [renderJson, h, if_pos hl]

theorem renderJson_leaf_of_not_isLiteral (h : Template.parse s = .ok t)
    (hl : t.isLiteral = false) :
    renderJson fromStr (Template.render resolve) invalid (.string s) =
      renderLeaf fromStr resolve t := by
  simp only [renderJson, h, hl, Bool.false_eq_true, if_false, renderLeaf, map_eq_pure_bind,
    leafJson_of_not_isLiteral hl]
  refine congrArg _ (funext fun rendered => ?_)
  split_ifs <;> rfl

/-- Rendering a leaf unescapes it, unless the leaf has an escape and no expression. -/
theorem renderJson_leaf (h : Template.parse s = .ok t)
    (hs : t.isLiteral = true → hasText s "$$\x7b" = false) :
    renderJson fromStr (Template.render resolve) invalid (.string s) =
      renderLeaf fromStr resolve t := by
  cases hl : t.isLiteral with
  | false => exact renderJson_leaf_of_not_isLiteral h hl
  | true =>
    rw [renderJson_leaf_of_isLiteral h hl, renderLeaf_of_isLiteral hl,
      (literalText_eq_iff h hl).2 (hs hl)]

end

end Loadr.Flow

namespace Loadr.Request

open Loadr.Flow

variable {σ : Type}

/-- The three functions that render JSON give a leaf the meaning of its template. -/
structure LeafEscapes (w : World) (f : Field) (resolve : String → StateM σ (Option String))
    (s : String) (t : Template) : Prop where
  value : renderJsonValue w.lib.fromStr resolve (.string s) =
    renderLeaf w.lib.fromStr (orUnresolved resolve) t
  json : renderJson w f (.string s) = renderLeaf w.lib.fromStr (renderExpr w f) t
  compiled : ∀ what c, CompiledJson.compile what (.string s) = .ok c →
    c.render w.lib.fromStr (renderTemplate w f) = renderLeaf w.lib.fromStr (renderExpr w f) t

theorem leaf_escapes_iff (w : World) (f : Field) (resolve : String → StateM σ (Option String))
    {s : String} {t : Template} (h : Template.parse s = .ok t) :
    LeafEscapes w f resolve s t ↔ (t.isLiteral = true → hasText s "$$\x7b" = false) := by
  constructor
  · intro hleaf hl
    have hjson := hleaf.json
    rw [renderJson, show renderTemplate w f = Template.render (renderExpr w f) from rfl,
      renderJson_leaf_of_isLiteral h hl, renderLeaf_of_isLiteral hl] at hjson
    have hrun := congrArg (fun m : Render Json => (m.run.run {}).1) hjson
    have hs := Json.string.inj (Except.ok.inj hrun)
    exact (literalText_eq_iff h hl).1 hs.symm
  · intro hs
    constructor
    case value | json => exact renderJson_leaf h hs
    case compiled =>
      intro what c hc
      have heq : c.render w.lib.fromStr (renderTemplate w f) = renderJson w f (.string s) :=
        CompiledJson.render_eq_renderJson hc
      rw [heq]
      exact renderJson_leaf h hs

/-- An escape next to an expression comes out unescaped. -/
theorem leaf_escapes_beside_expression :
    Template.parse "$$\x7ba\x7d$\x7bvu\x7d" =
        .ok ⟨[.lit "$\x7ba\x7d", .expr "vu"], "$$\x7ba\x7d$\x7bvu\x7d"⟩ ∧
      LeafEscapes hostWorld .body (fun _ : String => (pure none : StateM Unit (Option String)))
        "$$\x7ba\x7d$\x7bvu\x7d"
        ⟨[.lit "$\x7ba\x7d", .expr "vu"], "$$\x7ba\x7d$\x7bvu\x7d"⟩ :=
  ⟨by decide +kernel, (leaf_escapes_iff hostWorld .body _ (by decide +kernel)).2 nofun⟩

/-- An escape on its own is sent as it was written, where rendering its template unescapes it. -/
theorem escape_alone_kept :
    Template.parse "$$\x7ba\x7d" = .ok ⟨[.lit "$\x7ba\x7d"], "$$\x7ba\x7d"⟩ ∧
      (renderTemplate hostWorld .body ⟨[.lit "$\x7ba\x7d"], "$$\x7ba\x7d"⟩).run.run {} =
        (.ok "$\x7ba\x7d", {}) ∧
      (renderJson hostWorld .body (.string "$$\x7ba\x7d")).run.run {} =
        (.ok (.string "$$\x7ba\x7d"), {}) ∧
      (renderJsonValue hostWorld.lib.fromStr
          (fun _ : String => (pure none : StateM Unit (Option String)))
          (.string "$$\x7ba\x7d")).run.run () = (.ok (.string "$$\x7ba\x7d"), ()) ∧
      CompiledJson.compile "body" (.string "$$\x7ba\x7d") =
        .ok (.literal (.string "$$\x7ba\x7d")) := by
  have hparse : Template.parse "$$\x7ba\x7d" = .ok ⟨[.lit "$\x7ba\x7d"], "$$\x7ba\x7d"⟩ := by
    decide +kernel
  refine ⟨hparse, rfl, ?_, ?_, ?_⟩
  · rw [renderJson, Flow.renderJson, hparse]
    rfl
  · rw [renderJsonValue, Flow.renderJson, hparse]
    rfl
  · rw [CompiledJson.compile, parseTemplate, hparse]
    rfl

end Loadr.Request
