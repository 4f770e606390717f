import Loadr.Flow.Metrics

/-!
# Templates

Texts with expressions that are resolved at run time: `Template.parse` cuts a text into literals and
expressions, and `Template.render` puts the values of the expressions in, from left to right.

The parser scans bytes; the characters it looks for are single bytes that occur in no other
character, so the model scans characters and counts bytes for the positions in its errors.
-/

namespace Loadr.Flow

inductive TemplateError
  | unterminated (start : ℕ)
  | empty (start : ℕ)
  | unresolved (expr : String)
deriving DecidableEq

def TemplateError.message : TemplateError → String
  | unterminated start => "unterminated `$\x7b` starting at byte " ++ toString start ++
      "; close it with `\x7d` or escape it as `$$\x7b`"
  | empty start => "empty `$\x7b\x7d` expression at byte " ++ toString start
  | unresolved expr => "unresolved template variable `" ++ expr ++ "`"

inductive Part
  | lit (text : String)
  | expr (text : String)
deriving DecidableEq

structure Template where
  parts : List Part
  source : String
deriving DecidableEq

/-! ## Parsing -/

/-- Where the scan stands: in the text after the last expression, or in an expression that began at
byte `start`, with `depth` open braces. -/
inductive Scan
  | text (lit : List Char)
  | expr (lit : List Char) (start depth : ℕ) (content : List Char)

def pushLit (parts : List Part) (lit : List Char) : List Part :=
  if lit = [] then parts else parts ++ [.lit (String.ofList lit)]

/-- Scan the rest of a text from byte `offset` on. -/
def scanParts (offset : ℕ) (parts : List Part) : Scan → List Char → Except TemplateError (List Part)
  | .text lit, '$' :: '$' :: '{' :: rest =>
    scanParts (offset + 3) parts (.text (lit ++ ['$', '{'])) rest
  | .text lit, '$' :: '{' :: rest => scanParts (offset + 2) parts (.expr lit offset 1 []) rest
  | .text lit, c :: rest => scanParts (offset + c.utf8Size) parts (.text (lit ++ [c])) rest
  | .text lit, [] => .ok (pushLit parts lit)
  | .expr lit start depth content, '{' :: rest =>
    scanParts (offset + 1) parts (.expr lit start (depth + 1) (content ++ ['{'])) rest
  | .expr lit start depth content, '}' :: rest =>
    if depth = 1 then
      let expr := trim content
      if expr = [] then .error (.empty start)
      else scanParts (offset + 1) (pushLit parts lit ++ [.expr (String.ofList expr)]) (.text []) rest
    else scanParts (offset + 1) parts (.expr lit start (depth - 1) (content ++ ['}'])) rest
  | .expr lit start depth content, c :: rest =>
    scanParts (offset + c.utf8Size) parts (.expr lit start depth (content ++ [c])) rest
  | .expr _ start _ _, [] => .error (.unterminated start)

namespace Template

def parse (s : String) : Except TemplateError Template :=
  (scanParts 0 [] (.text []) s.toList).map fun parts => ⟨parts, s⟩

def isLiteral (t : Template) : Bool :=
  t.parts.all fun
    | .lit _ => true
    | .expr _ => false

def expressions (t : Template) : List String :=
  t.parts.filterMap fun
    | .lit _ => none
    | .expr e => some e

end Template

/-! ## Rendering -/

/-- A computation with a state of its own that may fail; a failure keeps the changes made before
it. -/
abbrev Rendering (σ ε : Type) := ExceptT ε (StateM σ)

variable {σ ε : Type}

def renderPart (resolve : String → Rendering σ ε String) (out : String) :
    Part → Rendering σ ε String
  | .lit text => pure (out ++ text)
  | .expr expr => do
    let value ← resolve expr
    return out ++ value

def Template.render (resolve : String → Rendering σ ε String) (t : Template) :
    Rendering σ ε String :=
  t.parts.foldlM (renderPart resolve) ""

/-- A resolver that writes down what it is asked. -/
def recorded (resolve : String → Rendering σ ε String) (expr : String) :
    Rendering (σ × List String) ε String :=
  ExceptT.mk fun s =>
    let (result, s') := (resolve expr).run s.1
    (result, s', s.2 ++ [expr])

end Loadr.Flow
