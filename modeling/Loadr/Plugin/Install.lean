import Loadr.Lib.Files
import Loadr.Lib.Machine

/-!
# Installing plugins

Unpacking an archive into a staging directory, copying the plugin from there into the plugins
directory, and removing a plugin.

The parser of manifests is a parameter, and so is what the archive libraries make of an archive: its
entries in order, where one may be unreadable.  Downloading and the check of the digest come before
all this.
-/

namespace Loadr.Plugin

open Files Command

/-! ## Archives -/

inductive EntryKind
  | file (bytes : Bytes)
  | dir
  | symlink (target : String)
  | hardlink (source : String)
deriving DecidableEq

structure TarEntry where
  path : String
  kind : EntryKind

structure ZipEntry where
  /-- The path, if it does not lead out of the archive. -/
  enclosedName : Option (List Component)
  isDir : Bool := false
  bytes : Bytes := []

inductive Archive
  | tarGz (entries : List (Option TarEntry))
  | zip (entries : List (Option ZipEntry))
  | unsupported

/-- The names of a path that has nothing else. -/
def names : List Component → Option (List String)
  | [] => some []
  | .normal name :: rest => (names rest).map (name :: ·)
  | _ :: _ => none

/-- The path below the plugin root: a single top-level directory is dropped, and no path that leads
out of the archive is accepted. -/
def flattenEntryPath (path : List Component) : Option (List String) :=
  match names (normalized path) with
  | none => none
  | some [] => none
  | some [name] => some [name]
  | some (_ :: name :: rest) => some (name :: rest)

def unpackEntry (cwd : Location) (out : List Component) : EntryKind → Io Unit
  | .file bytes => write out bytes
  | .dir => createDir out
  | .symlink target => place out (.symlink target)
  | .hardlink source => do
    let l ← locateEntry (join (Location.path cwd) source)
    let node ← nodeAt l
    match node with
    | some .dir => fail "operation not permitted"
    | some n => place out n
    | none => fail "no such file or directory"

def unpackTarGz (cwd dest : Location) (entries : List (Option TarEntry)) : Io Unit := do
  createDirAll (Location.path dest)
  each (fun entry => match entry with
    | none => fail "reading tar entry"
    | some entry => match flattenEntryPath (parse entry.path) with
      | none => return ()
      | some rel => do
        createDirAll (Location.path (dest ++ rel.dropLast))
        unpackEntry cwd (Location.path (dest ++ rel)) entry.kind) entries

def unpackZip (dest : Location) (entries : List (Option ZipEntry)) : Io Unit := do
  createDirAll (Location.path dest)
  each (fun entry => match entry with
    | none => fail "reading zip entry"
    | some entry => match entry.enclosedName.bind flattenEntryPath with
      | none => return ()
      | some rel =>
        if entry.isDir then return ()
        else do
          createDirAll (Location.path (dest ++ rel.dropLast))
          write (Location.path (dest ++ rel)) entry.bytes) entries

def unpackArchive (cwd dest : Location) : Archive → Io Unit
  | .tarGz entries => unpackTarGz cwd dest entries
  | .zip entries => unpackZip dest entries
  | .unsupported => fail "unsupported archive type (expected .tar.gz, .tgz or .zip)"

/-! ## Manifests -/

structure Manifest where
  name : String
  entry : String

variable (toml : Bytes → Option Manifest)

def loadManifest (dir : List Component) : Io Manifest := do
  let text ← read (dir ++ [.normal "plugin.toml"])
  match toml text with
  | some manifest => return manifest
  | none => fail "invalid manifest"

def renameIf (applies : Bool) (source target : List Component) : Io Unit :=
  if applies then rename source target else return ()

/-- Rename the artifact from its name in the index to that in the manifest. -/
def reconcileEntry (staging : Location) (indexEntry : String) : Io Unit := do
  let manifest ← loadManifest toml (Location.path staging)
  let want := fileName (join (Location.path staging) manifest.entry)
  let shipped := join (Location.path staging) indexEntry
  let target := Location.path (staging ++ want.toList)
  let present ← isFile shipped
  let taken ← isPresent target
  renameIf (present && normalized shipped ≠ target && !taken) shipped target
  let ready ← isFile target
  if ready then return ()
  else fail ("unpacked archive is missing the plugin artifact `" ++ want.getD "" ++ "`")

/-! ## Installation and removal -/

def copyIf (applies : Bool) (source target : List Component) : Io Unit :=
  if applies then do
    let bytes ← read source
    write target bytes
  else return ()

def copyFiles (src dest : List Component) : Io Unit := do
  let names ← readDir src
  each (fun name => do
    let file ← isFile (src ++ [.normal name])
    copyIf file (src ++ [.normal name]) (dest ++ [.normal name])) names

def installFromDir (src : List Component) (pluginsDir : Location) : Io Manifest := do
  let manifest ← loadManifest toml src
  let dest := join (Location.path pluginsDir) manifest.name
  createDirAll dest
  copyFiles src dest
  loadManifest toml dest

/-- Run with a new directory, which is removed in the end. -/
def withTempDir {α : Type} (tmp : Location) (body : Io α) : Io α :=
  fun fs =>
    let (r, fs) := body (fs.set tmp .dir)
    (r, fs.prune tmp)

def stagingDir (tmp : Location) : Location := tmp ++ ["unpacked"]

def installArchiveBytes (cwd tmp : Location) (archive : Archive) (pluginsDir : Location) :
    Io Manifest :=
  withTempDir tmp do
    unpackArchive cwd (stagingDir tmp) archive
    installFromDir toml (Location.path (stagingDir tmp)) pluginsDir

def installResolved (cwd tmp : Location) (archive : Archive) (indexEntry : String)
    (pluginsDir : Location) : Io Manifest :=
  withTempDir tmp do
    unpackArchive cwd (stagingDir tmp) archive
    reconcileEntry toml (stagingDir tmp) indexEntry
    installFromDir toml (Location.path (stagingDir tmp)) pluginsDir

def remove (pluginsDir : Location) (name : String) : Io Bool := do
  let dir := join (Location.path pluginsDir) name
  let installed ← isFile (dir ++ [.normal "plugin.toml"])
  if installed then do
    removeDirAll dir
    return true
  else return false

/-! ## Operations -/

/-- The operations on plugins; an upgrade installs what the index resolves to. -/
inductive Operation
  | install (archive : Archive)
  | installIndexed (archive : Archive) (indexEntry : String)
  | installDir (src : String)
  | remove (name : String)

/-- An operation in a working directory, with the location of the temporary directory it makes. -/
structure Invocation where
  cwd : Location
  tmp : Location
  operation : Operation

def Invocation.run (pluginsDir : Location) (fs : Fs) (c : Invocation) : Fs :=
  match c.operation with
  | .install archive => (installArchiveBytes toml c.cwd c.tmp archive pluginsDir fs).2
  | .installIndexed archive indexEntry =>
    (installResolved toml c.cwd c.tmp archive indexEntry pluginsDir fs).2
  | .installDir src => (installFromDir toml (join (Location.path c.cwd) src) pluginsDir fs).2
  | .remove name => (Plugin.remove pluginsDir name fs).2

/-- A temporary directory is made where nothing is, in a directory that exists, and apart from the
plugins directory. -/
structure FreshDir (pluginsDir : Location) (fs : Fs) (tmp : Location) : Prop where
  named : tmp ≠ []
  unused : ∀ p ∈ fs.nodes, ¬ tmp <+: p.1
  parents : ∀ l ∈ tmp.dropLast.inits, fs.node l = some .dir
  apart : ¬ tmp <+: pluginsDir ∧ ¬ pluginsDir <+: tmp

theorem freshDir_iff {pluginsDir : Location} {fs : Fs} {tmp : Location} :
    FreshDir pluginsDir fs tmp ↔ tmp ≠ [] ∧ (∀ p ∈ fs.nodes, ¬ tmp <+: p.1) ∧
      (∀ l ∈ tmp.dropLast.inits, fs.node l = some .dir) ∧
      ¬ tmp <+: pluginsDir ∧ ¬ pluginsDir <+: tmp :=
  ⟨fun h => ⟨h.named, h.unused, h.parents, h.apart⟩, fun h => ⟨h.1, h.2.1, h.2.2.1, h.2.2.2⟩⟩

instance {pluginsDir : Location} {fs : Fs} {tmp : Location} :
    Decidable (FreshDir pluginsDir fs tmp) :=
  decidable_of_iff' _ freshDir_iff

/-- No link stands on the way to the plugins directory or in it, and no file in it has another
name. -/
structure Tidy (pluginsDir : Location) (fs : Fs) : Prop where
  plain : ∀ l, l <+: pluginsDir ∨ pluginsDir <+: l → ∀ target, fs.node l ≠ some (.symlink target)
  sole : ∀ l, pluginsDir <+: l → ∀ i, fs.node l = some (.file i) →
    ∀ l', fs.node l' = some (.file i) → l' = l
  bounded : ∀ l i, fs.node l = some (.file i) → i < fs.next

def Operation.unpacks : Operation → Bool
  | .install _ | .installIndexed _ _ => true
  | .installDir _ | .remove _ => false

def installer (pluginsDir : Location) : Machine Fs Invocation where
  init := Tidy pluginsDir
  next fs c :=
    if c.operation.unpacks → FreshDir pluginsDir fs c.tmp then some (c.run toml pluginsDir fs)
    else none

theorem installer_next {toml : Bytes → Option Manifest} {pluginsDir : Location} {fs fs' : Fs}
    {c : Invocation} : (installer toml pluginsDir).next fs c = some fs' ↔
      (c.operation.unpacks → FreshDir pluginsDir fs c.tmp) ∧ c.run toml pluginsDir fs = fs' := by
  simp only [installer, Option.ite_none_right_eq_some, Option.some.injEq]

end Loadr.Plugin
