import Loadr.Lib.Greedy

/-!
# CSS selectors

`find_first_match` walks the arena of the document in order and carries the ancestors of the node it
is at.  An element is selected by a chain if its last compound matches the element and the preceding
ones match ancestors of it, in order.  The code takes the nearest ancestors, which misses no match.
-/

open List

namespace Loadr.CssSelect

/-! ## The document -/

inductive Node
  | element (tag : String) (attrs : List (String × String)) (children : List ℕ)
  | text (t : String)

def Node.children : Node → List ℕ
  | element _ _ children => children
  | text _ => []

def Node.isElement : Node → Bool
  | element .. => true
  | text _ => false

/-- The nodes of a document.  The parser pushes a node before its children. -/
structure Arena where
  nodes : List Node
  forward : ∀ idx, ∀ child ∈ (nodes.getD idx (.text "")).children,
    idx < child ∧ child < nodes.length

def Node.addChild (child : ℕ) : Node → Node
  | element tag attrs children => element tag attrs (children ++ [child])
  | text t => text t

theorem children_append {nodes : List Node} {node : Node} (h : node.children = []) (idx : ℕ) :
    ((nodes ++ [node]).getD idx (.text "")).children = (nodes.getD idx (.text "")).children := by
  simp only [getD_eq_getElem?_getD, getElem?_append, getElem?_singleton]
  grind [Node.children]

theorem children_modify {nodes : List Node} {parent child idx : ℕ} {n : ℕ}
    (h : child ∈ ((nodes.modify parent (.addChild n)).getD idx (.text "")).children) :
    child ∈ (nodes.getD idx (.text "")).children ∨ idx = parent ∧ child = n := by
  simp only [getD_eq_getElem?_getD, getElem?_modify] at h ⊢
  cases hnode : nodes[idx]? with
  | none => simp [hnode, Node.children] at h
  | some node =>
    by_cases hparent : parent = idx <;> cases node <;>
      simp_all [Node.addChild, Node.children]

namespace Arena

def empty : Arena := ⟨[], by simp [Node.children]⟩

/-- `push_node`: the node is the last child of the innermost open element, or a root. -/
def pushNode (arena : Arena) (parent : Option (Fin arena.nodes.length)) (node : Node)
    (hnode : node.children = []) : Arena where
  nodes := match parent with
    | some idx => arena.nodes.modify idx (.addChild arena.nodes.length) ++ [node]
    | none => arena.nodes ++ [node]
  forward := by
    intro idx child hchild
    cases parent with
    | none =>
      rw [children_append hnode] at hchild
      have := arena.forward idx child hchild
      simp only [length_append, length_singleton]
      omega
    | some parent =>
      rw [children_append hnode] at hchild
      simp only [length_append, length_modify, length_singleton]
      rcases children_modify hchild with hchild | ⟨rfl, rfl⟩
      · have := arena.forward idx child hchild
        omega
      · omega

example : ((empty.pushNode none (.element "div" [] []) rfl).pushNode (some ⟨0, by decide⟩)
    (.element "p" [] []) rfl).nodes.map Node.children = [[1], []] := rfl

end Arena

def Arena.node (arena : Arena) (idx : ℕ) : Node := arena.nodes.getD idx (.text "")

/-! ## Matching -/

structure AttrCond where
  name : String
  value : Option String

structure Compound where
  tag : Option String
  id : Option String
  classes : List String
  attrs : List AttrCond

/-- A chain of compounds; it is not empty. -/
structure Selector where
  preceding : List Compound
  last : Compound

/-- What is used of the library of strings. -/
structure Strings where
  toLowercase : String → String
  splitWhitespace : String → List String

variable (lib : Strings)

def getAttr (attrs : List (String × String)) (name : String) : Option String :=
  (attrs.find? fun a => a.1 = lib.toLowercase name).map (·.2)

def matchesCompound (c : Compound) : Node → Bool
  | .text _ => false
  | .element tag attrs _ =>
    c.tag.all (· = tag) && c.id.all (fun id => getAttr lib attrs "id" = some id) &&
      (c.classes.isEmpty ||
        let present := lib.splitWhitespace ((getAttr lib attrs "class").getD "")
        c.classes.all fun want => present.any (· = want)) &&
      c.attrs.all fun cond => match getAttr lib attrs cond.name with
        | some v => cond.value.all (v = ·)
        | none => false

variable (arena : Arena) (selector : Selector)

def matchesChain (idx : ℕ) (ancestors : List ℕ) : Bool :=
  matchesCompound lib selector.last (arena.node idx) &&
    (greedy (fun anc c => matchesCompound lib c (arena.node anc)) selector.preceding.reverse
      ancestors.reverse).isEmpty

def visit (idx : ℕ) (ancestors : List ℕ) : Option ℕ :=
  if (arena.node idx).isElement && matchesChain lib arena selector idx ancestors then some idx
  else (arena.node idx).children.attach.findSome? fun child =>
    visit child.1 (ancestors ++ [idx])
termination_by arena.nodes.length - idx
decreasing_by
  have := arena.forward idx _ child.2
  omega

def findFirstMatch (roots : List ℕ) : Option ℕ :=
  roots.findSome? fun root => visit lib arena selector root []

/-! ## The first element selected -/

/-- The nodes below a node in the order of the document, each with its ancestors. -/
def subtree (idx : ℕ) (ancestors : List ℕ) : List (ℕ × List ℕ) :=
  (idx, ancestors) :: (arena.node idx).children.attach.flatMap fun child =>
    subtree child.1 (ancestors ++ [idx])
termination_by arena.nodes.length - idx
decreasing_by
  have := arena.forward idx _ child.2
  omega

def documentOrder (roots : List ℕ) : List (ℕ × List ℕ) := roots.flatMap (subtree arena · [])

/-- Some choice of ancestors, in order, matches the preceding compounds. -/
def Selected (e : ℕ × List ℕ) : Prop :=
  matchesCompound lib selector.last (arena.node e.1) ∧ ∃ chosen, chosen <+ e.2 ∧
    Forall₂ (fun anc c => matchesCompound lib c (arena.node anc)) chosen selector.preceding

theorem matchesChain_iff (e : ℕ × List ℕ) :
    matchesChain lib arena selector e.1 e.2 ↔ Selected lib arena selector e := by
  rw [matchesChain, Bool.and_eq_true, List.isEmpty_iff, greedy_eq_nil_iff, Selected]
  refine and_congr_right fun _ => ⟨?_, ?_⟩
  · rintro ⟨chosen, hsub, hall⟩
    exact ⟨chosen.reverse, by simpa using hsub.reverse, by simpa using rel_reverse hall⟩
  · rintro ⟨chosen, hsub, hall⟩
    exact ⟨chosen.reverse, hsub.reverse, rel_reverse hall⟩

theorem isElement_of_matchesChain {idx : ℕ} {ancestors : List ℕ}
    (h : matchesChain lib arena selector idx ancestors) : (arena.node idx).isElement := by
  cases hnode : arena.node idx with
  | element => rfl
  | text => simp [matchesChain, hnode, matchesCompound] at h

theorem visit_eq (idx : ℕ) (ancestors : List ℕ) : visit lib arena selector idx ancestors =
    ((subtree arena idx ancestors).find? fun e => matchesChain lib arena selector e.1 e.2).map
      (·.1) := by
  fun_induction visit lib arena selector idx ancestors with
  | case1 idx ancestors h =>
    rw [subtree, find?_cons, (Bool.and_eq_true_iff.1 h).2]
    rfl
  | case2 idx ancestors h ih =>
    have hchain : matchesChain lib arena selector idx ancestors = false := by
      refine Bool.eq_false_iff.2 fun hc => h ?_
      rw [isElement_of_matchesChain lib arena selector hc, hc]
      rfl
    rw [subtree, find?_cons, hchain, find?_flatMap, map_findSome?]
    exact congrArg (findSome? · _) (funext ih)

open Classical in
/-- The walk returns the first element selected, and nothing exactly when no element is. -/
theorem findFirstMatch_eq (roots : List ℕ) :
    findFirstMatch lib arena selector roots =
      ((documentOrder arena roots).find? (Selected lib arena selector ·)).map (·.1) ∧
    (findFirstMatch lib arena selector roots = none ↔
      ∀ e ∈ documentOrder arena roots, ¬ Selected lib arena selector e) := by
  have hfind : findFirstMatch lib arena selector roots =
      ((documentOrder arena roots).find? (Selected lib arena selector ·)).map (·.1) := by
    simp only [findFirstMatch, visit_eq, documentOrder, find?_flatMap, map_findSome?,
      ← matchesChain_iff, Bool.decide_eq_true]
    rfl
  exact ⟨hfind, by simp [hfind]⟩

end Loadr.CssSelect
