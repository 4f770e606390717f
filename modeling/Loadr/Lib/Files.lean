import Loadr.Lib.Command
import Mathlib.Data.List.Infix
import Mathlib.Data.List.SplitOn

/-!
# Files

A file system with directories, regular files and symbolic links, and the commands that work on it
through paths.  A hard link is a second location of the same inode.  Reading and writing through a
path follows the links on it; links are made, renamed and removed without following the last one.
-/

namespace Loadr.Files

open List Option

/-! ## Paths -/

inductive Component
  | root
  | cur
  | parent
  | normal (name : String)
deriving DecidableEq

def component (part : String) : Component :=
  if part = "." then .cur else if part = ".." then .parent else .normal part

def parse (path : String) : List Component :=
  (if path.toList.head? = some '/' then [.root] else []) ++
    (((path.toList.splitOn '/').map String.ofList).filter (· ≠ "")).map component

/-- The components of a path without the dots inside of it. -/
def normalized : List Component → List Component
  | [] => []
  | c :: rest => c :: rest.filter (· ≠ .cur)

def join (dir : List Component) (path : String) : List Component :=
  match parse path with
  | .root :: rest => .root :: rest
  | rest => dir ++ rest

def fileName (path : List Component) : Option String :=
  match (normalized path).getLast? with
  | some (.normal name) => some name
  | _ => none

/-- A place in the tree: the names from the root on, with no links on the way. -/
abbrev Location := List String

def Location.path (l : Location) : List Component := .root :: l.map .normal

theorem Location.path_append (l : Location) (name : String) :
    Location.path l ++ [.normal name] = Location.path (l ++ [name]) := by
  simp [Location.path]

/-! ## File systems -/

abbrev Bytes := List UInt8

inductive Node
  | dir
  | file (inode : ℕ)
  | symlink (target : String)
deriving DecidableEq

structure Fs where
  nodes : List (Location × Node) := []
  contents : ℕ → Bytes := fun _ => []
  next : ℕ := 0

namespace Fs

def node (fs : Fs) (l : Location) : Option Node :=
  if l = [] then some .dir else (fs.nodes.find? (·.1 = l)).map (·.2)

def set (fs : Fs) (l : Location) (n : Node) : Fs :=
  { fs with nodes := (l, n) :: fs.nodes.filter (·.1 ≠ l) }

def restrict (fs : Fs) (keep : Location → Bool) : Fs :=
  { fs with nodes := fs.nodes.filter fun p => keep p.1 }

/-- Remove a location and everything below it. -/
def prune (fs : Fs) (l : Location) : Fs := fs.restrict fun l' => ¬ l <+: l'

def clear (fs : Fs) (l : Location) : Fs := fs.restrict fun l' => ¬ l <+: l' ∨ l' = l

def setContents (fs : Fs) (inode : ℕ) (bytes : Bytes) : Fs :=
  { fs with contents := Function.update fs.contents inode bytes }

def create (fs : Fs) (l : Location) (bytes : Bytes) : Fs :=
  { (fs.setContents fs.next bytes).set l (.file fs.next) with next := fs.next + 1 }

def names (fs : Fs) (l : Location) : List String :=
  fs.nodes.filterMap fun p => if p.1.dropLast = l then p.1.getLast? else none

variable {fs : Fs} {l l' : Location} {n : Node}

theorem node_set_of_ne (h : l' ≠ l) : (fs.set l n).node l' = fs.node l' := by
  have hfind : (fs.nodes.filter (·.1 ≠ l)).find? (·.1 = l') = fs.nodes.find? (·.1 = l') := by
    rw [find?_filter]
    congr 1
    funext p
    by_cases hp : p.1 = l' <;> simp [hp, h]
  unfold node
  split_ifs with hl
  · rfl
  · rw [set, find?_cons_of_neg (by simpa using Ne.symm h), hfind]

theorem node_set_self (h : l ≠ []) : (fs.set l n).node l = some n := by
  simp [node, set, h]

theorem node_set_cases {m : Node} (hm : m ≠ .dir) (h : (fs.set l n).node l' = some m) :
    l' = l ∧ m = n ∨ l' ≠ l ∧ fs.node l' = some m := by
  by_cases he : l' = l
  · subst he
    by_cases hl : l' = []
    · subst hl
      exact absurd (some.inj (h.symm.trans (by simp [node]))) hm
    · exact Or.inl ⟨rfl, some.inj (h.symm.trans (node_set_self hl))⟩
  · exact Or.inr ⟨he, (node_set_of_ne he).symm.trans h⟩

variable {keep : Location → Bool}

theorem node_restrict (hl : l ≠ []) :
    (fs.restrict keep).node l = if keep l then fs.node l else none := by
  have hfind : (fs.nodes.filter fun p => keep p.1).find? (·.1 = l) =
      if keep l then fs.nodes.find? (·.1 = l) else none := by
    induction fs.nodes with
    | nil => simp
    | cons p ps ih =>
      by_cases hp : p.1 = l
      · subst hp
        by_cases hk : keep p.1
        · simp [hk]
        · rw [filter_cons_of_neg (by simpa using hk), ih]
          simp [hk]
      · by_cases hk : keep p.1 <;> simp_all
  simp only [node, restrict, hl, if_false, hfind]
  split_ifs <;> rfl

theorem node_of_restrict {m : Node} (hm : m ≠ .dir) (h : (fs.restrict keep).node l = some m) :
    keep l ∧ fs.node l = some m := by
  by_cases hl : l = []
  · subst hl
    exact absurd (some.inj h).symm hm
  · rw [node_restrict hl] at h
    split_ifs at h with hk
    exact ⟨hk, h⟩

theorem node_restrict_of_keep (hk : keep l) : (fs.restrict keep).node l = fs.node l := by
  by_cases hl : l = []
  · subst hl
    simp [node]
  · rw [node_restrict hl, if_pos hk]

theorem mem_nodes (hn : n ≠ .dir) (h : fs.node l = some n) : (l, n) ∈ fs.nodes := by
  unfold node at h
  split_ifs at h
  · exact absurd (some.inj h).symm hn
  · obtain ⟨p, hp, rfl⟩ := map_eq_some_iff.1 h
    have hl := find?_some hp
    simp only [decide_eq_true_eq] at hl
    exact hl ▸ mem_of_find?_eq_some hp

end Fs

/-! ## Resolution -/

/-- Walk a path from a location; `jump` continues at a link. -/
def walk (fs : Fs) (jump : Location → List Component → Option Location) :
    Location → List Component → Option Location
  | l, [] => some l
  | _, .root :: rest => walk fs jump [] rest
  | l, .cur :: rest => walk fs jump l rest
  | l, .parent :: rest => walk fs jump l.dropLast rest
  | l, .normal name :: rest =>
    match fs.node (l ++ [name]) with
    | some (.symlink target) => jump l (parse target ++ rest)
    | some .dir => walk fs jump (l ++ [name]) rest
    | _ => if rest = [] then some (l ++ [name]) else none

/-- The location of a path, over so many links. -/
def resolveWith (fs : Fs) : ℕ → Location → List Component → Option Location
  | 0 => walk fs fun _ _ => none
  | links + 1 => walk fs (resolveWith fs links)

def maxLinks : ℕ := 40

def resolve (fs : Fs) (path : List Component) : Option Location := resolveWith fs maxLinks [] path

/-- The location of a path whose last component is not followed. -/
def resolveEntry (fs : Fs) (path : List Component) : Option Location :=
  match path.getLast? with
  | some (.normal name) => (resolve fs path.dropLast).bind fun l =>
    if fs.node l = some .dir then some (l ++ [name]) else none
  | _ => resolve fs path

/-- No link stands on the way to a location. -/
def Straight (fs : Fs) (l : Location) : Prop :=
  ∀ l', l' <+: l → ∀ target, fs.node l' ≠ some (.symlink target)

variable {fs : Fs} {l : Location}

theorem Straight.above {l' : Location} (h : Straight fs l) (hl : l' <+: l) : Straight fs l' :=
  fun _ hp => h _ (hp.trans hl)

variable {rest : List String} {m : Location}

theorem eq_of_walk {jump : Location → List Component → Option Location}
    (h : Straight fs (l ++ rest)) (hm : walk fs jump l (rest.map .normal) = some m) :
    m = l ++ rest := by
  induction rest generalizing l with
  | nil => simpa [walk] using hm.symm
  | cons name rest ih =>
    have hl : l ++ name :: rest = (l ++ [name]) ++ rest := by simp
    rw [hl] at h ⊢
    have hname := h (l ++ [name]) ⟨rest, rfl⟩
    rw [map_cons, walk] at hm
    split at hm
    · next target ht => exact absurd ht (hname target)
    · exact ih h hm
    · split_ifs at hm with hr
      simp only [map_eq_nil_iff] at hr
      subst hr
      simpa using hm.symm

theorem walk_dir {jump : Location → List Component → Option Location} {name : String}
    (h : Straight fs (l ++ rest)) (hm : walk fs jump l ((rest ++ [name]).map .normal) = some m)
    (hrest : rest ≠ []) :
    walk fs jump l (rest.map .normal) = some (l ++ rest) ∧ fs.node (l ++ rest) = some .dir := by
  induction rest generalizing l with
  | nil => cases hrest rfl
  | cons next rest ih =>
    have hl : l ++ next :: rest = (l ++ [next]) ++ rest := by simp
    rw [hl] at h ⊢
    have hnext := h (l ++ [next]) ⟨rest, rfl⟩
    rw [cons_append, map_cons, walk] at hm
    rw [map_cons, walk]
    split at hm
    · next target ht => exact absurd ht (hnext target)
    · next hdir =>
      cases rest with
      | nil => simpa [walk] using hdir
      | cons => exact ih h hm (by simp)
    · simp at hm

theorem eq_of_resolve (h : Straight fs l) (hm : resolve fs (Location.path l) = some m) : m = l :=
  eq_of_walk h hm

theorem resolve_dir {name : String} (h : Straight fs l) (hl : l ≠ [])
    (hm : resolve fs (Location.path (l ++ [name])) = some m) :
    resolve fs (Location.path l) = some l ∧ fs.node l = some .dir :=
  walk_dir h hm hl

theorem eq_of_resolveEntry (h : Straight fs l.dropLast) (hl : l ≠ [])
    (hm : resolveEntry fs (Location.path l) = some m) : m = l := by
  have hsplit : Location.path l = Location.path l.dropLast ++ [.normal (l.getLast hl)] := by
    rw [Location.path_append, dropLast_append_getLast]
  rw [resolveEntry, hsplit, getLast?_concat, dropLast_concat] at hm
  obtain ⟨d, hd, hm⟩ := bind_eq_some_iff.1 hm
  split_ifs at hm
  rw [eq_of_resolve h hd, dropLast_append_getLast] at hm
  exact (some.inj hm).symm

/-! ## Commands -/

abbrev Io := Command Fs

open Command

def found {α : Type} (message : String) : Option α → Except String α
  | some a => .ok a
  | none => .error message

def locate (path : List Component) : Io Location :=
  query fun fs => found "no such file or directory" (resolve fs path)

def locateEntry (path : List Component) : Io Location :=
  query fun fs => found "no such file or directory" (resolveEntry fs path)

def Fs.isFile (fs : Fs) (path : List Component) : Bool :=
  match (resolve fs path).bind fs.node with
  | some (.file _) => true
  | _ => false

def Fs.isPresent (fs : Fs) (path : List Component) : Bool := ((resolve fs path).bind fs.node).isSome

def Fs.read (fs : Fs) (path : List Component) : Option Bytes :=
  match (resolve fs path).bind fs.node with
  | some (.file inode) => some (fs.contents inode)
  | _ => none

def isFile (path : List Component) : Io Bool := query fun fs => .ok (fs.isFile path)

def isPresent (path : List Component) : Io Bool := query fun fs => .ok (fs.isPresent path)

def read (path : List Component) : Io Bytes :=
  query fun fs => found "cannot read file" (fs.read path)

def readDir (path : List Component) : Io (List String) :=
  query fun fs => found "no such directory" ((resolve fs path).map fs.names)

def nodeAt (l : Location) : Io (Option Node) := query fun fs => .ok (fs.node l)

def expectDir (path : List Component) : Io Location :=
  query fun fs => found "not a directory"
    ((resolve fs path).bind fun l => if fs.node l = some .dir then some l else none)

/-- Enter a directory, which is made if there is none. -/
def enterDir (l : Location) : Io Location := do
  let node ← nodeAt l
  match node with
  | some _ => expectDir (Location.path l)
  | none => do
    modify (·.set l .dir)
    return l

def makeDirs : Location → List Component → Io Unit
  | _, [] => return ()
  | _, .root :: rest => makeDirs [] rest
  | l, .cur :: rest => makeDirs l rest
  | l, .parent :: rest => makeDirs l.dropLast rest
  | l, .normal name :: rest => do
    let l ← enterDir (l ++ [name])
    makeDirs l rest

def createDirAll (path : List Component) : Io Unit := makeDirs [] path

def createDir (path : List Component) : Io Unit := do
  let l ← locateEntry path
  let _ ← enterDir l
  return ()

/-- Write a file, following the links on the path. -/
def write (path : List Component) (bytes : Bytes) : Io Unit := do
  let l ← locate path
  let node ← nodeAt l
  match node with
  | some (.file inode) => modify (·.setContents inode bytes)
  | none => modify (·.create l bytes)
  | some _ => fail "is a directory"

/-- Put a link or a second name of a file at a path. -/
def place (path : List Component) (n : Node) : Io Unit := do
  let l ← locateEntry path
  let node ← nodeAt l
  if node = some .dir then fail "is a directory"
  else modify (·.set l n)

def rename (source target : List Component) : Io Unit := do
  let source ← locateEntry source
  let target ← locateEntry target
  let node ← nodeAt source
  match node with
  | some n => modify fun fs => (fs.prune source).set target n
  | none => fail "no such file or directory"

/-- Remove a directory and everything below it; one that is not given by its name stays, empty. -/
def removeDirAll (path : List Component) : Io Unit := do
  let l ← locateEntry path
  match path.getLast? with
  | some (.normal _) => modify (·.prune l)
  | _ => do
    modify (·.clear l)
    fail "directory not empty"

/-! ## Rules -/

variable {I : Fs → Prop}

theorem keeps_nodeAt {P : Option Node → Prop} (h : ∀ fs, I fs → P (fs.node l)) :
    Keeps I (nodeAt l) P :=
  keeps_query fun fs hfs _ hn => Except.ok.inj hn ▸ h fs hfs

theorem ok_of_found {α : Type} {message : String} {o : Option α} {a : α}
    (h : found message o = .ok a) : o = some a := by
  cases o with
  | none => simp [found] at h
  | some b => exact congrArg some (Except.ok.inj h)

theorem keeps_locate (h : ∀ fs, I fs → Straight fs l) :
    Keeps I (locate (Location.path l)) (· = l) :=
  keeps_query fun fs hfs _ hm => eq_of_resolve (h fs hfs) (ok_of_found hm)

theorem keeps_locateEntry (hl : l ≠ []) (h : ∀ fs, I fs → Straight fs l.dropLast) :
    Keeps I (locateEntry (Location.path l)) (· = l) :=
  keeps_query fun fs hfs _ hm => eq_of_resolveEntry (h fs hfs) hl (ok_of_found hm)

theorem keeps_enterDir (h : ∀ fs, I fs → Straight fs l)
    (hnew : ∀ fs, I fs → fs.node l = none → I (fs.set l .dir)) :
    Keeps I (enterDir l) (· = l) := by
  intro fs hfs
  simp only [enterDir, nodeAt, ends_bind, ends_query]
  cases hn : fs.node l with
  | none => exact ⟨hnew fs hfs hn, fun _ ha => (Except.ok.inj ha).symm⟩
  | some n =>
    refine ⟨hfs, fun a ha => ?_⟩
    obtain ⟨m, hm, ha⟩ := bind_eq_some_iff.1 (ok_of_found ha)
    split_ifs at ha
    exact (some.inj ha).symm.trans (eq_of_resolve (h fs hfs) hm)

theorem keeps_makeDirs (h : ∀ fs, I fs → Straight fs (l ++ rest))
    (hnew : ∀ l', l' <+: l ++ rest → ∀ fs, I fs → fs.node l' = none → I (fs.set l' .dir)) :
    Keeps I (makeDirs l (rest.map .normal)) fun _ => True := by
  induction rest generalizing l with
  | nil => exact keeps_pure trivial
  | cons name rest ih =>
    have hl : l ++ name :: rest = (l ++ [name]) ++ rest := by simp
    rw [hl] at h hnew
    have hname : l ++ [name] <+: l ++ [name] ++ rest := ⟨rest, rfl⟩
    refine (keeps_enterDir (fun fs hfs => (h fs hfs).above hname) (hnew _ hname)).bind ?_
    rintro _ rfl
    exact ih h hnew

theorem keeps_createDirAll (h : ∀ fs, I fs → Straight fs l)
    (hnew : ∀ l', l' <+: l → ∀ fs, I fs → fs.node l' = none → I (fs.set l' .dir)) :
    Keeps I (createDirAll (Location.path l)) fun _ => True :=
  keeps_makeDirs (l := []) h hnew

theorem keeps_createDir (hl : l ≠ []) (h : ∀ fs, I fs → Straight fs l)
    (hnew : ∀ fs, I fs → fs.node l = none → I (fs.set l .dir)) :
    Keeps I (createDir (Location.path l)) fun _ => True := by
  refine (keeps_locateEntry hl fun fs hfs => (h fs hfs).above (List.dropLast_prefix l)).bind ?_
  rintro _ rfl
  exact (keeps_enterDir h hnew).bind fun _ _ => keeps_pure trivial

theorem keeps_write {bytes : Bytes} (h : ∀ fs, I fs → Straight fs l)
    (hold : ∀ fs i, I fs → fs.node l = some (.file i) → I (fs.setContents i bytes))
    (hnew : ∀ fs, I fs → fs.node l = none → I (fs.create l bytes)) :
    Keeps I (write (Location.path l) bytes) fun _ => True := by
  refine (keeps_locate h).bind ?_
  intro m hm fs hfs
  subst hm
  simp only [nodeAt, ends_bind, ends_query]
  cases hn : fs.node m with
  | none => exact ⟨hnew fs hfs hn, fun _ _ => trivial⟩
  | some n =>
    cases n with
    | file i => exact ⟨hold fs i hfs hn, fun _ _ => trivial⟩
    | dir | symlink => exact ⟨hfs, fun _ _ => trivial⟩

theorem keeps_place {n : Node} (hl : l ≠ []) (h : ∀ fs, I fs → Straight fs l.dropLast)
    (hset : ∀ fs, I fs → I (fs.set l n)) :
    Keeps I (place (Location.path l) n) fun _ => True := by
  refine (keeps_locateEntry hl h).bind ?_
  rintro _ rfl
  refine (keeps_nodeAt (P := fun _ => True) fun _ _ => trivial).bind fun _ _ => ?_
  split_ifs
  · exact keeps_fail
  · exact keeps_modify hset

theorem ends_rename {s t : Location} {Q : Except String Unit → Fs → Prop} (hs : s ≠ [])
    (ht : t ≠ []) (hs' : Straight fs s.dropLast) (ht' : Straight fs t.dropLast)
    (hok : ∀ n, fs.node s = some n → Q (.ok ()) ((fs.prune s).set t n))
    (herror : ∀ message, Q (.error message) fs) :
    (rename (Location.path s) (Location.path t)).Ends fs Q := by
  simp only [rename, locateEntry, nodeAt, ends_bind, ends_query]
  cases hrs : resolveEntry fs (Location.path s) with
  | none => exact herror _
  | some s' =>
    obtain rfl := eq_of_resolveEntry hs' hs hrs
    cases hrt : resolveEntry fs (Location.path t) with
    | none => simpa [found] using herror _
    | some t' =>
      obtain rfl := eq_of_resolveEntry ht' ht hrt
      cases hn : fs.node s' with
      | none => simpa [found, hn] using herror _
      | some n => simpa [found, hn] using hok n hn

end Loadr.Files
