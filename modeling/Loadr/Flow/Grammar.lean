import Loadr.Flow.Template
import Loadr.Lib.Utf8

/-!
# The grammar of templates

A template is read from left to right as a sequence of tokens: a character, the escape `$${` or an
expression in balanced braces (`Scans`).  Reading stops before an expression that is not closed or
blank (`Fault`).  `Template.parse` succeeds exactly on texts that are read to their end
(`parse_ok_iff`), and its error says where and why reading stops (`parse_error_iff`).
-/

namespace Loadr.Flow

open List

variable {c : Char} {d offset start : ℕ} {text rest inside tail content lit : List Char}
  {parts : List Part}

/-! ## Braces -/

/-- The number of open braces after a character; a brace that closes nothing is refused. -/
def brace (depth : ℕ) (c : Char) : Option ℕ :=
  if c = '{' then some (depth + 1)
  else if c = '}' then if depth = 0 then none else some (depth - 1)
  else some depth

def depthAfter (depth : ℕ) (text : List Char) : Option ℕ := text.foldlM brace depth

def BalancedBraces (text : List Char) : Prop := depthAfter 0 text = some 0

instance : DecidablePred BalancedBraces :=
  fun text => inferInstanceAs (Decidable (depthAfter 0 text = some 0))

/-- The text up to the brace that closes an open one, and the text behind it; `depth` counts the
braces opened meanwhile. -/
def closeBrace (depth : ℕ) : List Char → Option (List Char × List Char)
  | [] => none
  | c :: rest => match brace depth c with
    | none => some ([], rest)
    | some depth => (closeBrace depth rest).map fun (inside, rest) => (c :: inside, rest)

theorem depthAfter_cons : depthAfter d (c :: rest) = (brace d c).bind (depthAfter · rest) := rfl

theorem brace_eq_none_iff : brace d c = none ↔ c = '}' ∧ d = 0 := by
  unfold brace
  split_ifs with h₁ h₂ h₃
  · simp [h₁]
  · simp [h₂, h₃]
  · simp [h₃]
  · simp [h₂]

theorem closeBrace_eq_some_iff : closeBrace d text = some (inside, rest) ↔
    text = inside ++ '}' :: rest ∧ depthAfter d inside = some 0 := by
  induction text generalizing d inside rest with
  | nil => simp [closeBrace]
  | cons c text ih =>
    rw [closeBrace]
    cases hb : brace d c with
    | none =>
      obtain ⟨rfl, rfl⟩ := brace_eq_none_iff.1 hb
      cases inside with
      | nil => simp [depthAfter, pure]
      | cons c' inside =>
        simp only [Option.some.injEq, Prod.mk.injEq, List.nil_eq, reduceCtorEq, false_and,
          List.cons_append, List.cons.injEq, false_iff, not_and]
        rintro ⟨rfl, -⟩ h
        rw [depthAfter_cons, hb] at h
        cases h
    | some d' =>
      simp only [Option.map_eq_some_iff, Prod.exists, ih, Prod.mk.injEq]
      constructor
      · rintro ⟨inside, rest, ⟨rfl, h⟩, rfl, rfl⟩
        exact ⟨rfl, by rw [depthAfter_cons, hb]; exact h⟩
      · rintro ⟨htext, h⟩
        cases inside with
        | nil =>
          cases htext
          cases Option.some.inj h
          cases hb.symm.trans (brace_eq_none_iff.2 ⟨rfl, rfl⟩)
        | cons c' inside =>
          cases htext
          rw [depthAfter_cons, hb] at h
          exact ⟨inside, rest, ⟨rfl, h⟩, rfl, rfl⟩

theorem closeBrace_eq_none_iff : closeBrace d text = none ↔
    ∀ inside rest, depthAfter d inside = some 0 → text ≠ inside ++ '}' :: rest := by
  rw [Option.eq_none_iff_forall_ne_some]
  constructor
  · intro h inside rest hd htext
    exact h (inside, rest) (closeBrace_eq_some_iff.2 ⟨htext, hd⟩)
  · rintro h ⟨inside, rest⟩ hclose
    obtain ⟨htext, hd⟩ := closeBrace_eq_some_iff.1 hclose
    exact h inside rest hd htext

/-! ## The scan -/

theorem scanParts_escape : scanParts offset parts (.text lit) ('$' :: '$' :: '{' :: rest) =
    scanParts (offset + 3) parts (.text (lit ++ ['$', '{'])) rest := by
  rw [scanParts]

theorem scanParts_open : scanParts offset parts (.text lit) ('$' :: '{' :: rest) =
    scanParts (offset + 2) parts (.expr lit offset 1 []) rest := by
  rw [scanParts]

theorem scanParts_inside {d' : ℕ} (h : brace d c = some d') :
    scanParts offset parts (.expr lit start (d + 1) content) (c :: rest) =
      scanParts (offset + c.utf8Size) parts (.expr lit start (d' + 1) (content ++ [c])) rest := by
  unfold brace at h
  split_ifs at h with h₁ h₂ h₃
  · cases h
    rw [h₁, scanParts]
    rfl
  · obtain ⟨d, rfl⟩ := Nat.exists_eq_succ_of_ne_zero h₃
    cases h
    rw [h₂, scanParts, if_neg (by omega)]
    rfl
  · cases h
    rw [scanParts] <;> assumption

theorem scanParts_close : scanParts offset parts (.expr lit start 1 content) ('}' :: rest) =
    if trim content = [] then .error (.empty start)
    else scanParts (offset + 1) (pushLit parts lit ++ [.expr (String.ofList (trim content))])
      (.text []) rest := by
  rw [scanParts, if_pos rfl]

/-- How the scan goes on when the end of an expression was looked for. -/
def afterExpr (offset : ℕ) (parts : List Part) (lit : List Char) (start : ℕ) (content : List Char) :
    Option (List Char × List Char) → Except TemplateError (List Part)
  | none => .error (.unterminated start)
  | some (inside, rest) =>
    if trim (content ++ inside) = [] then .error (.empty start)
    else scanParts (offset + Utf8.size inside + 1)
      (pushLit parts lit ++ [.expr (String.ofList (trim (content ++ inside)))]) (.text []) rest

theorem afterExpr_cons (found : Option (List Char × List Char)) :
    afterExpr offset parts lit start content (found.map fun (inside, rest) => (c :: inside, rest)) =
      afterExpr (offset + c.utf8Size) parts lit start (content ++ [c]) found := by
  cases found with
  | none => rfl
  | some found =>
    simp only [afterExpr, Option.map_some, Utf8.size_cons, append_assoc, singleton_append,
      Nat.add_assoc]

theorem scanParts_expr : scanParts offset parts (.expr lit start (d + 1) content) text =
    afterExpr offset parts lit start content (closeBrace d text) := by
  induction text generalizing d content offset with
  | nil => rw [scanParts, closeBrace, afterExpr]
  | cons c text ih =>
    rw [closeBrace]
    cases hb : brace d c with
    | none =>
      obtain ⟨rfl, rfl⟩ := brace_eq_none_iff.1 hb
      simp only [Nat.zero_add, scanParts_close, afterExpr, append_nil, Utf8.size_nil, Nat.add_zero]
    | some d' => rw [scanParts_inside hb, ih, afterExpr_cons]

/-! ## Tokens -/

/-- What is read in one go: a character, the escape of an opening, or an expression. -/
inductive Token
  | char (c : Char)
  | escape
  | expr (content : List Char)

namespace Token

def source : Token → List Char
  | char c => [c]
  | escape => ['$', '$', '{']
  | expr content => '$' :: '{' :: (content ++ ['}'])

def add : List Part × List Char → Token → List Part × List Char
  | (parts, lit), char c => (parts, lit ++ [c])
  | (parts, lit), escape => (parts, lit ++ ['$', '{'])
  | (parts, lit), expr content => (pushLit parts lit ++ [.expr (String.ofList (trim content))], [])

end Token

def Blank (text : List Char) : Prop := ∀ c ∈ text, isWhiteSpace c = true

/-- An expression or an escape begins the text. -/
def Opening (text : List Char) : Prop :=
  ∃ rest, text = '$' :: '{' :: rest ∨ text = '$' :: '$' :: '{' :: rest

inductive Reads : List Char → Token → List Char → Prop
  | char {c : Char} {rest : List Char} : ¬ Opening (c :: rest) → Reads (c :: rest) (.char c) rest
  | escape {rest : List Char} : Reads ('$' :: '$' :: '{' :: rest) .escape rest
  | expr {content rest : List Char} : BalancedBraces content → ¬ Blank content →
    Reads ('$' :: '{' :: (content ++ '}' :: rest)) (.expr content) rest

inductive Scans : List Char → List Token → List Char → Prop
  | nil {text : List Char} : Scans text [] text
  | cons {text mid rest : List Char} {token : Token} {tokens : List Token} :
    Reads text token mid → Scans mid tokens rest → Scans text (token :: tokens) rest

inductive Fault : List Char → (ℕ → TemplateError) → Prop
  | unterminated {rest : List Char} :
    (∀ inside tail, BalancedBraces inside → rest ≠ inside ++ '}' :: tail) →
    Fault ('$' :: '{' :: rest) .unterminated
  | empty {inside rest : List Char} : BalancedBraces inside → Blank inside →
    Fault ('$' :: '{' :: (inside ++ '}' :: rest)) .empty

def assemble (tokens : List Token) : List Part :=
  let state := tokens.foldl Token.add ([], [])
  pushLit state.1 state.2

def sourceOf (tokens : List Token) : List Char := tokens.flatMap Token.source

variable {token : Token} {tokens : List Token}

theorem trim_eq_nil_iff : trim text = [] ↔ Blank text := by
  rw [trim, rdropWhile_eq_nil_iff]
  constructor
  · intro h c hc
    rw [← takeWhile_append_dropWhile (p := isWhiteSpace) (l := text)] at hc
    rcases mem_append.1 hc with hc | hc
    · exact mem_takeWhile_imp hc
    · exact h c hc
  · intro h c hc
    exact h c ((dropWhile_sublist isWhiteSpace).subset hc)

theorem Reads.source_eq (h : Reads text token rest) : text = token.source ++ rest := by
  cases h <;> simp [Token.source]

theorem Scans.source_eq (h : Scans text tokens rest) : text = sourceOf tokens ++ rest := by
  induction h with
  | nil => rfl
  | cons hread _ ih => rw [hread.source_eq, ih, sourceOf, sourceOf, flatMap_cons, append_assoc]

theorem scanParts_char (h : ¬ Opening (c :: rest)) : scanParts offset parts (.text lit) (c :: rest) =
    scanParts (offset + c.utf8Size) parts (.text (lit ++ [c])) rest := by
  rw [scanParts]
  · rintro tail rfl rfl
    exact h ⟨tail, .inr rfl⟩
  · rintro tail rfl rfl
    exact h ⟨tail, .inl rfl⟩

theorem Token.size_expr : Utf8.size (Token.expr content).source = 2 + Utf8.size content + 1 := by
  simp only [Token.source, Utf8.size_cons, Utf8.size_append, Utf8.size_nil]
  change 1 + (1 + (_ + (1 + 0))) = _
  omega

theorem Reads.scanParts_eq (h : Reads text token rest) :
    scanParts offset parts (.text lit) text =
      scanParts (offset + Utf8.size token.source) (token.add (parts, lit)).1
        (.text (token.add (parts, lit)).2) rest := by
  cases h with
  | char h => exact scanParts_char h
  | escape => exact scanParts_escape
  | expr hb ht =>
    rw [scanParts_open, scanParts_expr, closeBrace_eq_some_iff.2 ⟨rfl, hb⟩, afterExpr,
      nil_append, if_neg (mt trim_eq_nil_iff.1 ht), Token.size_expr]
    simp only [Token.add, Nat.add_assoc]

theorem Scans.scanParts_eq (h : Scans text tokens rest) :
    scanParts offset parts (.text lit) text =
      scanParts (offset + Utf8.size (sourceOf tokens)) (tokens.foldl Token.add (parts, lit)).1
        (.text (tokens.foldl Token.add (parts, lit)).2) rest := by
  induction h generalizing offset parts lit with
  | nil => rfl
  | cons hread _ ih =>
    rw [hread.scanParts_eq, ih]
    simp only [sourceOf, flatMap_cons, Utf8.size_append, foldl_cons, Nat.add_assoc]

theorem Fault.scanParts_eq {error : ℕ → TemplateError} (h : Fault text error) :
    scanParts offset parts (.text lit) text = .error (error offset) := by
  cases h with
  | unterminated h =>
    rw [scanParts_open, scanParts_expr, closeBrace_eq_none_iff.2 h]
    rfl
  | empty hb ht =>
    rw [scanParts_open, scanParts_expr, closeBrace_eq_some_iff.2 ⟨rfl, hb⟩, afterExpr,
      nil_append, if_pos (trim_eq_nil_iff.2 ht)]

/-! ## Parsing -/

/-- A text is at its end, begins with a token, or cannot be read. -/
theorem reads_or_fault (text : List Char) : text = [] ∨
    (∃ token rest, Reads text token rest ∧ rest.length < text.length) ∨
      ∃ error, Fault text error := by
  cases text with
  | nil => exact .inl rfl
  | cons c text =>
    refine .inr ?_
    by_cases ho : Opening (c :: text)
    · obtain ⟨rest, h | h⟩ := ho
      · rw [h]
        cases hclose : closeBrace 0 rest with
        | none =>
          refine .inr ⟨_, .unterminated fun inside tail hb => ?_⟩
          exact closeBrace_eq_none_iff.1 hclose inside tail hb
        | some found =>
          obtain ⟨inside, tail⟩ := found
          obtain ⟨rfl, hb⟩ := closeBrace_eq_some_iff.1 hclose
          by_cases ht : Blank inside
          · exact .inr ⟨_, .empty hb ht⟩
          · refine .inl ⟨_, _, .expr hb ht, ?_⟩
            simp only [length_cons, length_append]
            omega
      · rw [h]
        exact .inl ⟨_, _, .escape, by simp only [length_cons]; omega⟩
    · exact .inl ⟨_, _, .char ho, by simp⟩

theorem exists_scans (text : List Char) : ∃ tokens,
    Scans text tokens [] ∨ ∃ stop error, Scans text tokens stop ∧ Fault stop error := by
  induction hn : text.length using Nat.strong_induction_on generalizing text with
  | _ n ih =>
    obtain rfl | ⟨token, rest, hread, hlt⟩ | ⟨error, hfault⟩ := reads_or_fault text
    · exact ⟨[], .inl .nil⟩
    · obtain ⟨tokens, h | ⟨stop, error, h, hfault⟩⟩ := ih rest.length (hn ▸ hlt) rest rfl
      · exact ⟨token :: tokens, .inl (.cons hread h)⟩
      · exact ⟨token :: tokens, .inr ⟨stop, error, .cons hread h, hfault⟩⟩
    · exact ⟨[], .inr ⟨text, error, .nil, hfault⟩⟩

variable {s : String} {t : Template}

theorem parse_of_scans (h : Scans s.toList tokens []) :
    Template.parse s = .ok ⟨assemble tokens, s⟩ := by
  rw [Template.parse, h.scanParts_eq, scanParts]
  rfl

theorem parse_of_fault {stop : List Char} {error : ℕ → TemplateError}
    (h : Scans s.toList tokens stop) (hfault : Fault stop error) :
    Template.parse s = .error (error (Utf8.size (sourceOf tokens))) := by
  rw [Template.parse, h.scanParts_eq, hfault.scanParts_eq, Nat.zero_add]
  rfl

theorem parse_ok_iff : Template.parse s = .ok t ↔
    ∃ tokens, Scans s.toList tokens [] ∧ t = ⟨assemble tokens, s⟩ := by
  constructor
  · intro hparse
    obtain ⟨tokens, h | ⟨stop, error, h, hfault⟩⟩ := exists_scans s.toList
    · exact ⟨tokens, h, Except.ok.inj (hparse.symm.trans (parse_of_scans h))⟩
    · cases hparse.symm.trans (parse_of_fault h hfault)
  · rintro ⟨tokens, h, rfl⟩
    exact parse_of_scans h

theorem parse_error_iff {e : TemplateError} : Template.parse s = .error e ↔
    ∃ tokens stop error, Scans s.toList tokens stop ∧ Fault stop error ∧
      e = error (Utf8.size (sourceOf tokens)) := by
  constructor
  · intro hparse
    obtain ⟨tokens, h | ⟨stop, error, h, hfault⟩⟩ := exists_scans s.toList
    · cases hparse.symm.trans (parse_of_scans h)
    · exact ⟨tokens, stop, error, h, hfault,
        Except.error.inj (hparse.symm.trans (parse_of_fault h hfault))⟩
  · rintro ⟨tokens, stop, error, h, hfault, rfl⟩
    exact parse_of_fault h hfault

end Loadr.Flow
