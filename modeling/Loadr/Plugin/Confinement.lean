import Loadr.Lib.Regions
import Loadr.Plugin.Install

/-!
# What the installer may touch

An operation on a plugin changes its temporary directory and the directory of that plugin, as long
as the archive unpacks nothing at or below a link it brings along and every name that is appended to
a directory is a single name.  Without that it can change any file.
-/

namespace Loadr.Plugin

open Files Command List

variable {toml : Bytes → Option Manifest} {pluginsDir : Location}

/-! ## Conditions -/

def EntryKind.isLink : EntryKind → Bool
  | .symlink _ | .hardlink _ => true
  | .file _ | .dir => false

/-- The entries that are unpacked, by their paths below the plugin root. -/
def Archive.accepted : Archive → List (List String × EntryKind)
  | .tarGz entries => entries.filterMap fun entry => entry.bind fun e =>
    (flattenEntryPath (parse e.path)).map (·, e.kind)
  | .zip entries => entries.filterMap fun entry => entry.bind fun e =>
    if e.isDir then none
    else (e.enclosedName.bind flattenEntryPath).map (·, EntryKind.file e.bytes)
  | .unsupported => []

/-- Nothing but a link is unpacked at the place of a link and nothing below it, and the manifest is
no link. -/
def Archive.Orderly (archive : Archive) : Prop :=
  ∀ e ∈ archive.accepted, e.2.isLink → e.1 ≠ ["plugin.toml"] ∧
    ∀ e' ∈ archive.accepted, e.1 <+: e'.1 → e'.1 = e.1 ∧ e'.2.isLink

instance (archive : Archive) : Decidable archive.Orderly := inferInstanceAs (Decidable (∀ _ ∈ _, _))

def Archive.manifests (toml : Bytes → Option Manifest) (archive : Archive) : List Manifest :=
  archive.accepted.filterMap fun e => match e with
    | (["plugin.toml"], .file bytes) => toml bytes
    | _ => none

/-- The path leads to an entry of the archive, and not through a link of it. -/
def Archive.reaches (archive : Archive) (path : String) : Bool :=
  (names (parse path)).any fun rel =>
    archive.accepted.all fun e => e.2.isLink → e.1 <+: rel → e.1 = rel

/-- The directory name that a plugin name stands for, if it is a single name. -/
def plainName (name : String) : Option String :=
  match parse name with
  | [.normal n] => some n
  | _ => none

def manifestAt (toml : Bytes → Option Manifest) (fs : Fs) (dir : List Component) :
    Option Manifest :=
  (fs.read (dir ++ [.normal "plugin.toml"])).bind toml

def Invocation.manifests (toml : Bytes → Option Manifest) (fs : Fs) (c : Invocation) :
    List Manifest :=
  match c.operation with
  | .install archive | .installIndexed archive _ => archive.manifests toml
  | .installDir src => (manifestAt toml fs (join (Location.path c.cwd) src)).toList
  | .remove _ => []

def Invocation.pluginNames (toml : Bytes → Option Manifest) (fs : Fs) (c : Invocation) :
    List String :=
  match c.operation with
  | .remove name => [name]
  | _ => (c.manifests toml fs).map (·.name)

/-- No archive entry lies at or below a link, and all names are single names. -/
def Invocation.Plain (toml : Bytes → Option Manifest) (fs : Fs) (c : Invocation) : Prop :=
  (∀ name ∈ c.pluginNames toml fs, (plainName name).isSome) ∧
  match c.operation with
  | .install archive => archive.Orderly
  | .installIndexed archive indexEntry => archive.Orderly ∧ archive.reaches indexEntry
  | _ => True

instance (fs : Fs) (c : Invocation) : Decidable (c.Plain toml fs) := by
  unfold Invocation.Plain
  cases c.operation <;> infer_instance

def Invocation.Scratch (c : Invocation) (l : Location) : Prop := c.operation.unpacks ∧ c.tmp <+: l

/-- Outside the temporary directory, at most the directory of one plugin that the operation names
changes, and the way to the plugins directory is made. -/
def Confined (toml : Bytes → Option Manifest) (pluginsDir : Location) (c : Invocation)
    (fs fs' : Fs) : Prop :=
  Unchanged pluginsDir (fun l => ¬ c.Scratch l) fs fs' ∨
    ∃ name ∈ c.pluginNames toml fs, ∃ dir, plainName name = some dir ∧
      Unchanged pluginsDir (fun l => ¬ c.Scratch l ∧ ¬ pluginsDir ++ [dir] <+: l) fs fs'

/-! ## Unpacking -/

variable {path : List Component} {rel : List String} {e : List String × EntryKind} {l : Location}

theorem flattenEntryPath_ne_nil (h : flattenEntryPath path = some rel) : rel ≠ [] := by
  unfold flattenEntryPath at h
  split at h
  · cases h
  · cases h
  · cases h
    simp
  · cases h
    simp

theorem accepted_ne_nil {archive : Archive} (he : e ∈ archive.accepted) : e.1 ≠ [] := by
  cases archive with
  | tarGz entries =>
    obtain ⟨entry, -, he⟩ := mem_filterMap.1 he
    obtain ⟨t, -, he⟩ := Option.bind_eq_some_iff.1 he
    obtain ⟨rel, hrel, rfl⟩ := Option.map_eq_some_iff.1 he
    exact flattenEntryPath_ne_nil hrel
  | zip entries =>
    obtain ⟨entry, -, he⟩ := mem_filterMap.1 he
    obtain ⟨z, -, he⟩ := Option.bind_eq_some_iff.1 he
    split_ifs at he
    obtain ⟨rel, hrel, rfl⟩ := Option.map_eq_some_iff.1 he
    obtain ⟨path, -, hrel⟩ := Option.bind_eq_some_iff.1 hrel
    exact flattenEntryPath_ne_nil hrel
  | unsupported => simp [Archive.accepted] at he

section Staging

variable {tmp cwd : Location} {archive : Archive} {fs₀ fs : Fs}

def manifestFile (tmp : Location) : Location := stagingDir tmp ++ ["plugin.toml"]

def stagingRegion (tmp : Location) (archive : Archive) : Region where
  root := tmp
  links l := ∃ e ∈ archive.accepted, e.2.isLink ∧ l = stagingDir tmp ++ e.1
  outside l := ¬ tmp <+: l
  admits l bytes := l = manifestFile tmp → (["plugin.toml"], .file bytes) ∈ archive.accepted
  not_links := by
    rintro l hout ⟨e, -, -, rfl⟩
    exact hout ⟨["unpacked"] ++ e.1, by simp [stagingDir]⟩

theorem staging_ne_nil : stagingDir tmp ++ rel ≠ [] := by
  simp [stagingDir]

theorem staging_below : tmp <+: stagingDir tmp ++ rel := ⟨["unpacked"] ++ rel, by simp [stagingDir]⟩

theorem dropLast_staging (h : rel ≠ []) :
    (stagingDir tmp ++ rel).dropLast = stagingDir tmp ++ rel.dropLast :=
  dropLast_append_of_ne_nil h

theorem staging_inside : ¬ (stagingRegion tmp archive).outside (stagingDir tmp ++ rel) :=
  not_not_intro staging_below

theorem inner_staging (h : ∀ e ∈ archive.accepted, e.2.isLink → ¬ e.1 <+: rel) :
    (stagingRegion tmp archive).Inner (stagingDir tmp ++ rel) where
  below := staging_below
  inside := staging_inside
  clear := by
    rintro l' hp ⟨e, he, hlink, rfl⟩
    exact h e he hlink (prefix_append_right_inj _ |>.1 hp)

theorem not_prefix_nil (he : e ∈ archive.accepted) : ¬ e.1 <+: [] :=
  fun h => accepted_ne_nil he (prefix_nil.1 h)

theorem inner_parent (ho : archive.Orderly) (he : e ∈ archive.accepted) :
    (stagingRegion tmp archive).Inner (stagingDir tmp ++ e.1.dropLast) := by
  refine inner_staging fun e' he' hlink hp => ?_
  have heq := ((ho e' he' hlink).2 e he (hp.trans (List.dropLast_prefix _))).1
  rw [heq] at hp
  have hlen := hp.length_le
  have hpos := length_pos_iff.2 (accepted_ne_nil he')
  rw [length_dropLast] at hlen
  omega

theorem inner_entry (ho : archive.Orderly) (he : e ∈ archive.accepted) (hkind : ¬ e.2.isLink) :
    (stagingRegion tmp archive).Inner (stagingDir tmp ++ e.1) :=
  inner_staging fun e' he' hlink hp => hkind ((ho e' he' hlink).2 e he hp).2

theorem inner_manifestFile (ho : archive.Orderly) :
    (stagingRegion tmp archive).Inner (manifestFile tmp) := by
  refine inner_staging fun e he hlink hp => ?_
  rcases prefix_cons_iff.1 hp with hnil | ⟨rest, hrest, hp⟩
  · exact accepted_ne_nil he hnil
  · rw [prefix_nil.1 hp] at hrest
    exact (ho e he hlink).1 hrest

theorem keeps_createDirAll_staging (hl : (stagingRegion tmp archive).Inner l) :
    Keeps ((stagingRegion tmp archive).Holds fs₀) (createDirAll (Location.path l))
      fun _ => True := by
  refine Region.keeps_createDirAll hl fun l' hp => ?_
  rcases prefix_or_prefix_of_prefix hp hl.below with h | h
  · exact Or.inl h
  · exact Or.inr (not_not_intro h)

theorem keeps_place_staging (ho : archive.Orderly) (he : e ∈ archive.accepted) (hlink : e.2.isLink)
    {n : Node} (hfs : (stagingRegion tmp archive).Holds fs₀ fs)
    (hfile : ∀ i, n = .file i → i < fs.next) :
    (place (Location.path (stagingDir tmp ++ e.1)) n).Ends fs
      fun r fs' => (stagingRegion tmp archive).Holds fs₀ fs' ∧ ∀ a, r = .ok a → True := by
  have hparent : (stagingRegion tmp archive).Inner (stagingDir tmp ++ e.1.dropLast) :=
    inner_parent ho he
  have hkeeps : Keeps (fun f => (stagingRegion tmp archive).Holds fs₀ f ∧
      ∀ i, n = .file i → i < f.next) (place (Location.path (stagingDir tmp ++ e.1)) n)
      fun _ => True := by
    refine keeps_place staging_ne_nil (fun f hf => ?_) fun f hf => ⟨?_, hf.2⟩
    · rw [dropLast_staging (accepted_ne_nil he)]
      exact hf.1.straight (Or.inr hparent.below) hparent.clear
    · exact hf.1.set (Or.inl staging_inside) (Or.inl ⟨e, he, hlink, rfl⟩) hf.2
  exact (hkeeps fs ⟨hfs, hfile⟩).mono fun r f hf => ⟨hf.1.1, hf.2⟩

theorem keeps_write_staging (ho : archive.Orderly) {bytes : Bytes}
    (he : (rel, EntryKind.file bytes) ∈ archive.accepted) :
    Keeps ((stagingRegion tmp archive).Holds fs₀)
      (write (Location.path (stagingDir tmp ++ rel)) bytes) fun _ => True := by
  refine Region.keeps_write (inner_entry ho he (by simp [EntryKind.isLink])) fun hl => ?_
  rw [manifestFile, append_cancel_left_eq] at hl
  exact hl ▸ he

theorem keeps_unpackEntry (ho : archive.Orderly) (he : e ∈ archive.accepted) :
    Keeps ((stagingRegion tmp archive).Holds fs₀)
      (unpackEntry cwd (Location.path (stagingDir tmp ++ e.1)) e.2) fun _ => True := by
  obtain ⟨rel, kind⟩ := e
  cases kind with
  | file bytes => exact keeps_write_staging ho he
  | dir =>
    exact Region.keeps_createDir staging_ne_nil (inner_entry ho he (by simp [EntryKind.isLink]))
  | symlink target =>
    intro fs hfs
    exact keeps_place_staging ho he rfl hfs (by simp)
  | hardlink source =>
    refine keeps_query_bind fun l => ?_
    intro fs hfs
    simp only [nodeAt, ends_bind, ends_query]
    cases hn : fs.node l with
    | none => exact ⟨hfs, fun _ _ => trivial⟩
    | some n =>
      cases n with
      | dir => exact ⟨hfs, fun _ _ => trivial⟩
      | file i =>
        exact keeps_place_staging ho he rfl hfs fun j hj => hfs.bounded l j (hn.trans (by rw [hj]))
      | symlink target => exact keeps_place_staging ho he rfl hfs (by simp)

theorem keeps_unpackArchive (ho : archive.Orderly) :
    Keeps ((stagingRegion tmp archive).Holds fs₀) (unpackArchive cwd (stagingDir tmp) archive)
      fun _ => True := by
  have hdest : (stagingRegion tmp archive).Inner (stagingDir tmp) := by
    have h : (stagingRegion tmp archive).Inner (stagingDir tmp ++ []) :=
      inner_staging fun e he _ => not_prefix_nil he
    rwa [append_nil] at h
  cases archive with
  | tarGz entries =>
    refine (keeps_createDirAll_staging hdest).bind fun _ _ => keeps_each fun entry hentry => ?_
    cases entry with
    | none => exact keeps_fail
    | some entry =>
      dsimp only
      split
      · exact keeps_pure trivial
      · next rel hrel =>
        have he : (rel, entry.kind) ∈ (Archive.tarGz entries).accepted :=
          mem_filterMap.2 ⟨some entry, hentry, by simp [hrel]⟩
        exact (keeps_createDirAll_staging (inner_parent ho he)).bind fun _ _ =>
          keeps_unpackEntry ho he
  | zip entries =>
    refine (keeps_createDirAll_staging hdest).bind fun _ _ => keeps_each fun entry hentry => ?_
    cases entry with
    | none => exact keeps_fail
    | some entry =>
      dsimp only
      split
      · exact keeps_pure trivial
      · next rel hrel =>
        split_ifs with hdir
        · exact keeps_pure trivial
        · have he : (rel, EntryKind.file entry.bytes) ∈ (Archive.zip entries).accepted :=
            mem_filterMap.2
              ⟨some entry, hentry, by rw [Option.bind_some, if_neg hdir, hrel]; rfl⟩
          exact (keeps_createDirAll_staging (inner_parent ho he)).bind fun _ _ =>
            keeps_write_staging ho he
  | unsupported => exact keeps_fail

/-! ## What was unpacked -/

/-- Everything else is as before, and the manifest is one of the archive. -/
structure Staged (tmp : Location) (archive : Archive) (fs₀ fs : Fs) : Prop where
  unchanged : Unchanged tmp (fun l => ¬ tmp <+: l) fs₀ fs
  bounded : ∀ l i, fs.node l = some (.file i) → i < fs.next
  straight : Straight fs (manifestFile tmp)
  manifest : ∀ i, fs.node (manifestFile tmp) = some (.file i) →
    (["plugin.toml"], .file (fs.contents i)) ∈ archive.accepted

theorem Staged.of_holds (ho : archive.Orderly)
    (h : (stagingRegion tmp archive).Holds fs₀ fs) : Staged tmp archive fs₀ fs := by
  have hinner : (stagingRegion tmp archive).Inner (manifestFile tmp) := inner_manifestFile ho
  refine ⟨h.unchanged, h.bounded, h.straight (Or.inr hinner.below) hinner.clear, fun i hi => ?_⟩
  exact h.admitted _ hinner.below (hinner.clear _ prefix_rfl) i hi rfl

theorem read_eq_some {bytes : Bytes} (h : fs.read path = some bytes) :
    ∃ l i, resolve fs path = some l ∧ fs.node l = some (.file i) ∧ fs.contents i = bytes := by
  unfold Fs.read at h
  split at h
  · next i hi =>
    obtain ⟨l, hl, hn⟩ := Option.bind_eq_some_iff.1 hi
    exact ⟨l, i, hl, hn, Option.some.inj h⟩
  · cases h

theorem ends_loadManifest {dir : List Component} {Q : Except String Manifest → Fs → Prop}
    (hok : ∀ m, manifestAt toml fs dir = some m → Q (.ok m) fs)
    (herror : ∀ message, Q (.error message) fs) : (loadManifest toml dir).Ends fs Q := by
  unfold loadManifest Files.read
  rw [ends_bind, ends_query]
  cases hr : fs.read (dir ++ [.normal "plugin.toml"]) with
  | none => exact herror _
  | some bytes =>
    show Ends _ fs Q
    cases ht : toml bytes with
    | none => exact herror _
    | some m => exact hok m (by simp [manifestAt, hr, ht])

theorem Staged.mem_manifests (h : Staged tmp archive fs₀ fs) {m : Manifest}
    (hm : manifestAt toml fs (Location.path (stagingDir tmp)) = some m) :
    m ∈ archive.manifests toml := by
  obtain ⟨bytes, hread, htoml⟩ := Option.bind_eq_some_iff.1 hm
  rw [Location.path_append] at hread
  obtain ⟨l, i, hl, hi, rfl⟩ := read_eq_some hread
  obtain rfl := eq_of_resolve h.straight hl
  exact mem_filterMap.2 ⟨_, h.manifest i hi, htoml⟩

theorem Staged.rename (h : Staged tmp archive fs₀ fs) {s t : Location} {n : Node}
    (hs : tmp <+: s) (ht : tmp <+: t) (htarget : ¬ t <+: manifestFile tmp)
    (hn : fs.node s = some n) : Staged tmp archive fs₀ ((fs.prune s).set t n) := by
  have hcases : ∀ {l m}, ((fs.prune s).set t n).node l = some m → m ≠ .dir →
      l = t ∧ m = n ∨ l ≠ t ∧ fs.node l = some m := by
    intro l m hm hdir
    exact (Fs.node_set_cases hdir hm).imp_right fun ⟨hl, hm⟩ =>
      ⟨hl, (Fs.node_of_restrict hdir hm).2⟩
  refine ⟨h.unchanged.trans (Unchanged.of_node (fun l hl => ?_) rfl), ?_, ?_, ?_⟩
  · have hne : l ≠ t := fun he => hl (he ▸ ht)
    rw [Fs.node_set_of_ne hne]
    exact Fs.node_restrict_of_keep (by simpa using fun hp => hl (hs.trans hp))
  · intro l i hi
    obtain ⟨-, rfl⟩ | ⟨-, hi⟩ := hcases hi (by simp)
    · exact h.bounded s i hn
    · exact h.bounded l i hi
  · intro l hl target hlink
    obtain ⟨rfl, -⟩ | ⟨-, hlink⟩ := hcases hlink (by simp)
    · exact htarget hl
    · exact h.straight l hl target hlink
  · intro i hi
    obtain ⟨he, -⟩ | ⟨-, hi⟩ := hcases hi (by simp)
    · cases htarget (he ▸ prefix_rfl)
    · exact h.manifest i hi

theorem names_eq_some (h : names path = some rel) : path = rel.map .normal := by
  induction path generalizing rel with
  | nil => cases h; rfl
  | cons c path ih =>
    cases c with
    | normal name =>
      obtain ⟨rest, hrest, rfl⟩ := Option.map_eq_some_iff.1 h
      rw [map_cons, ih hrest]
    | _ => cases h

theorem join_names {dir : Location} {path : String} (h : names (parse path) = some rel) :
    join (Location.path dir) path = Location.path (dir ++ rel) := by
  have hparse := names_eq_some h
  cases rel with
  | nil | cons => simp [join, hparse, Location.path]

theorem not_prefix_of_not_present (h : Straight fs (manifestFile tmp)) {m : Manifest}
    (hm : manifestAt toml fs (Location.path (stagingDir tmp)) = some m) {want : Option String}
    (hfree : fs.isPresent (Location.path (stagingDir tmp ++ want.toList)) = false) :
    ¬ stagingDir tmp ++ want.toList <+: manifestFile tmp := by
  obtain ⟨bytes, hread, -⟩ := Option.bind_eq_some_iff.1 hm
  rw [Location.path_append] at hread
  obtain ⟨l, i, hl, hi, rfl⟩ := read_eq_some hread
  intro hp
  cases want with
  | none =>
    obtain ⟨hdir, hnode⟩ := resolve_dir (h.above ⟨_, rfl⟩) (by simp [stagingDir]) hl
    simp [Fs.isPresent, hdir, hnode] at hfree
  | some w =>
    obtain rfl := eq_of_resolve h hl
    have hw : w = "plugin.toml" := by
      simpa using (prefix_append_right_inj _).1 hp
    subst hw
    simp [Fs.isPresent, hl, hi] at hfree

theorem straight_parent (h : (stagingRegion tmp archive).Holds fs₀ fs)
    (hrel : ∀ e ∈ archive.accepted, e.2.isLink → e.1 <+: rel → e.1 = rel) :
    Straight fs (stagingDir tmp ++ rel).dropLast := by
  have hparent := dropLast_prefix (stagingDir tmp ++ rel)
  refine h.straight (List.prefix_or_prefix_of_prefix hparent staging_below) ?_
  rintro l' hp ⟨e, he, hlink, rfl⟩
  rw [hrel e he hlink ((prefix_append_right_inj _).1 (hp.trans hparent))] at hp
  have hlen := hp.length_le
  simp only [length_append, length_dropLast, stagingDir, length_singleton] at hlen
  omega

theorem staged_reconcileEntry (ho : archive.Orderly) {indexEntry : String}
    (hreach : archive.reaches indexEntry) (h : (stagingRegion tmp archive).Holds fs₀ fs) :
    (reconcileEntry toml (stagingDir tmp) indexEntry).Ends fs
      fun _ fs' => Staged tmp archive fs₀ fs' := by
  have hstaged := Staged.of_holds ho h
  obtain ⟨rel, hrel, hclear⟩ := Option.any_eq_true _ _ |>.1 hreach
  rw [reconcileEntry, ends_bind]
  refine ends_loadManifest (fun m hm => ?_) fun _ => hstaged
  simp only [isFile, isPresent, ends_bind, ends_query, join_names hrel]
  generalize fileName (join (Location.path (stagingDir tmp)) m.entry) = want
  have htail : ∀ fs', Staged tmp archive fs₀ fs' →
      (if fs'.isFile (Location.path (stagingDir tmp ++ want.toList)) then pure () else
        fail ("unpacked archive is missing the plugin artifact `" ++ want.getD "" ++ "`") :
        Io Unit).Ends fs' fun _ fs'' => Staged tmp archive fs₀ fs'' := by
    intro fs' hfs'
    split_ifs <;> exact hfs'
  unfold renameIf
  split_ifs with hcond
  · simp only [Bool.and_eq_true, Bool.not_eq_true'] at hcond
    have hfree := not_prefix_of_not_present hstaged.straight hm hcond.2
    refine ends_rename staging_ne_nil staging_ne_nil ?_ ?_ (fun n hn => htail _ ?_) fun _ => hstaged
    · exact straight_parent h fun e he => of_decide_eq_true (all_eq_true.1 hclear e he)
    · refine straight_parent h fun e he _ hp => ?_
      cases want with
      | none => exact absurd hp (not_prefix_nil he)
      | some w =>
        rcases prefix_cons_iff.1 hp with hnil | ⟨rest, hrest, hp⟩
        · exact absurd hnil (accepted_ne_nil he)
        · rw [hrest, prefix_nil.1 hp]
          rfl
    · exact hstaged.rename staging_below staging_below hfree hn
  · exact htail fs hstaged

end Staging

/-! ## Copying -/

section Home

variable {c : Invocation} {dir : String} {fs₀ fs : Fs}

/-- The plugins directory while the plugin in `dir` is copied into it. -/
def pluginRegion (pluginsDir : Location) (c : Invocation) (dir : String) : Region where
  root := pluginsDir
  links := c.Scratch
  outside l := ¬ c.Scratch l ∧ ¬ pluginsDir ++ [dir] <+: l
  admits _ _ := True
  not_links _ hout := hout.1

/-- The temporary directory of the operation is apart from the plugins directory. -/
def Invocation.Apart (pluginsDir : Location) (c : Invocation) : Prop :=
  ∀ l, pluginsDir <+: l → ¬ c.Scratch l

theorem inner_plugin (ha : c.Apart pluginsDir) :
    (pluginRegion pluginsDir c dir).Inner (pluginsDir ++ dir :: rel) where
  below := ⟨dir :: rel, rfl⟩
  inside h := h.2 ⟨rel, by simp⟩
  clear l' hp hs := ha _ ⟨dir :: rel, rfl⟩ ⟨hs.1, hs.2.trans hp⟩

theorem keeps_copyFiles (ha : c.Apart pluginsDir) (src : List Component) :
    Keeps ((pluginRegion pluginsDir c dir).Holds fs₀)
      (copyFiles src (Location.path (pluginsDir ++ [dir]))) fun _ => True := by
  refine keeps_query_bind fun names => ?_
  refine keeps_each fun name _ => ?_
  refine keeps_query_bind fun file => ?_
  unfold copyIf
  split_ifs
  · refine keeps_query_bind fun bytes => ?_
    rw [Location.path_append, append_assoc]
    exact Region.keeps_write (inner_plugin ha) trivial
  · exact keeps_pure trivial

theorem keeps_createDirAll_plugin (ha : c.Apart pluginsDir) :
    Keeps ((pluginRegion pluginsDir c dir).Holds fs₀)
      (createDirAll (Location.path (pluginsDir ++ [dir]))) fun _ => True := by
  refine Region.keeps_createDirAll (inner_plugin ha) fun l' hp => ?_
  rcases prefix_concat_iff.1 hp with rfl | hp
  · exact Or.inr fun hout => hout.2 prefix_rfl
  · exact Or.inl hp

theorem join_plainName {name : String} (h : plainName name = some dir) :
    join (Location.path pluginsDir) name = Location.path (pluginsDir ++ [dir]) := by
  refine join_names ?_
  unfold plainName at h
  split at h
  · next n hn =>
    rw [hn, Option.some.inj h]
    rfl
  · cases h

theorem ends_installFromDir (ha : c.Apart pluginsDir) {src : List Component}
    (hplain : ∀ m, manifestAt toml fs src = some m → (plainName m.name).isSome)
    (hfs : ∀ dir, (pluginRegion pluginsDir c dir).Holds fs fs) :
    (installFromDir toml src pluginsDir).Ends fs fun _ fs' => fs' = fs ∨
      ∃ m dir, manifestAt toml fs src = some m ∧ plainName m.name = some dir ∧
        (pluginRegion pluginsDir c dir).Holds fs fs' := by
  rw [installFromDir, ends_bind]
  refine ends_loadManifest (fun m hm => ?_) fun _ => Or.inl rfl
  obtain ⟨dir, hdir⟩ := Option.isSome_iff_exists.1 (hplain m hm)
  have hrest : Keeps ((pluginRegion pluginsDir c dir).Holds fs) (do
      createDirAll (join (Location.path pluginsDir) m.name)
      copyFiles src (join (Location.path pluginsDir) m.name)
      loadManifest toml (join (Location.path pluginsDir) m.name)) fun _ => True := by
    rw [join_plainName hdir]
    refine (keeps_createDirAll_plugin ha).bind fun _ _ => (keeps_copyFiles ha src).bind fun _ _ => ?_
    exact fun f hf => ends_loadManifest (fun _ _ => ⟨hf, fun _ _ => trivial⟩)
      fun _ => ⟨hf, fun _ _ => trivial⟩
  exact (hrest fs (hfs dir)).mono fun _ _ h => Or.inr ⟨m, dir, hm, hdir, h.1⟩

theorem Tidy.holds (ht : Tidy pluginsDir fs₀) {root : Location}
    (hu : Unchanged root (fun l => ¬ c.Scratch l) fs₀ fs)
    (hb : ∀ l i, fs.node l = some (.file i) → i < fs.next) :
    (pluginRegion pluginsDir c dir).Holds fs fs := by
  have hold : ∀ l n, n ≠ .dir → ¬ c.Scratch l → fs.node l = some n → fs₀.node l = some n := by
    intro l n hn hl hnode
    obtain ⟨he | ⟨-, -, hd⟩, -⟩ := hu l hl
    · exact he.symm.trans hnode
    · exact absurd (Option.some.inj (hnode.symm.trans hd)) hn
  refine ⟨?_, ?_, hb, fun _ _ _ _ _ => trivial, .refl⟩
  · intro l hl hs target hlink
    exact ht.plain l hl target (hold l _ (by simp) hs hlink)
  · intro l hl hs i hi l' hs' hi'
    exact ht.sole l hl i (hold l _ (by simp) hs hi) l' (hold l' _ (by simp) hs' hi')

theorem Tidy.of_holds (h : (pluginRegion pluginsDir c dir).Holds fs₀ fs) {fs' : Fs}
    (hnode : ∀ l n, n ≠ .dir → fs'.node l = some n → ¬ c.Scratch l ∧ fs.node l = some n)
    (hnext : fs'.next = fs.next) : Tidy pluginsDir fs' where
  plain l hl target hlink := by
    obtain ⟨hs, hlink⟩ := hnode l _ (by simp) hlink
    exact h.plain l hl hs target hlink
  sole l hl i hi l' hi' := by
    obtain ⟨hs, hi⟩ := hnode l _ (by simp) hi
    obtain ⟨hs', hi'⟩ := hnode l' _ (by simp) hi'
    exact h.sole l hl hs i hi l' hs' hi'
  bounded l i hi := by
    obtain ⟨-, hi⟩ := hnode l _ (by simp) hi
    exact hnext ▸ h.bounded l i hi

end Home

/-! ## Operations -/

section Operations

variable {c : Invocation} {archive : Archive} {fs : Fs}

theorem FreshDir.node {tmp : Location} (h : FreshDir pluginsDir fs tmp) (hl : tmp <+: l) :
    fs.node l = none := by
  have hne : l ≠ [] := by
    rintro rfl
    exact h.named (prefix_nil.1 hl)
  rw [Fs.node, if_neg hne, Option.map_eq_none_iff, find?_eq_none]
  intro p hp he
  exact h.unused p hp (of_decide_eq_true he ▸ hl)

theorem FreshDir.parent {tmp : Location} (h : FreshDir pluginsDir fs tmp) (hl : l <+: tmp)
    (hne : ¬ tmp <+: l) : fs.node l = some .dir := by
  refine h.parents l ((mem_inits _ _).2 ?_)
  rw [← dropLast_append_getLast h.named] at hl
  rcases prefix_concat_iff.1 hl with rfl | hl
  · cases hne (by rw [dropLast_append_getLast])
  · exact hl

theorem FreshDir.holds {tmp : Location} (h : FreshDir pluginsDir fs tmp)
    (ht : Tidy pluginsDir fs) : (stagingRegion tmp archive).Holds fs (fs.set tmp .dir) := by
  have hinside : ∀ l n, n ≠ .dir → tmp <+: l → (fs.set tmp .dir).node l ≠ some n := by
    intro l n hn hl hnode
    obtain ⟨-, rfl⟩ | ⟨-, hnode⟩ := Fs.node_set_cases hn hnode
    · exact hn rfl
    · cases (h.node hl).symm.trans hnode
  refine ⟨?_, ?_, ?_, ?_, Unchanged.of_node (fun l hl => ?_) rfl⟩
  · intro l hl _ target hlink
    by_cases hbelow : tmp <+: l
    · exact hinside l _ (by simp) hbelow hlink
    · obtain ⟨-, hd⟩ | ⟨-, hlink⟩ := Fs.node_set_cases (by simp) hlink
      · cases hd
      · cases (h.parent (hl.resolve_right hbelow) hbelow).symm.trans hlink
  · intro l hl _ i hi
    exact absurd hi (hinside l _ (by simp) hl)
  · intro l i hi
    obtain ⟨-, hd⟩ | ⟨-, hi⟩ := Fs.node_set_cases (by simp) hi
    · cases hd
    · exact ht.bounded l i hi
  · intro l hl _ i hi
    exact absurd hi (hinside l _ (by simp) hl)
  · exact Fs.node_set_of_ne fun he => hl (he ▸ prefix_rfl)

/-- What an operation on an archive has made of the file system before its temporary directory is
removed: it has unpacked, and then perhaps copied the plugin of a manifest of the archive. -/
def Built (toml : Bytes → Option Manifest) (pluginsDir : Location) (c : Invocation)
    (archive : Archive) (fs₀ fs : Fs) : Prop :=
  ∃ fs₁, Staged c.tmp archive fs₀ fs₁ ∧ (fs = fs₁ ∨ ∃ m ∈ archive.manifests toml, ∃ dir,
    plainName m.name = some dir ∧ (pluginRegion pluginsDir c dir).Holds fs₁ fs)

theorem ends_install_staged (ha : c.Apart pluginsDir) (hu : c.operation.unpacks)
    (hplain : ∀ m ∈ archive.manifests toml, (plainName m.name).isSome) {fs₀ : Fs}
    (ht : Tidy pluginsDir fs₀) (hs : Staged c.tmp archive fs₀ fs) :
    (installFromDir toml (Location.path (stagingDir c.tmp)) pluginsDir).Ends fs
      fun _ fs' => Built toml pluginsDir c archive fs₀ fs' := by
  have hscratch : ∀ l, ¬ c.Scratch l → ¬ c.tmp <+: l := fun l hl hp => hl ⟨hu, hp⟩
  refine (ends_installFromDir ha (fun m hm => hplain m (hs.mem_manifests hm)) fun dir =>
    ht.holds (hs.unchanged.mono hscratch) hs.bounded).mono ?_
  rintro r fs' (rfl | ⟨m, dir, hm, hdir, h⟩)
  · exact ⟨fs', hs, Or.inl rfl⟩
  · exact ⟨fs, hs, Or.inr ⟨m, hs.mem_manifests hm, dir, hdir, h⟩⟩

theorem Built.of_staged {fs₀ : Fs} (hs : Staged c.tmp archive fs₀ fs) :
    Built toml pluginsDir c archive fs₀ fs :=
  ⟨fs, hs, Or.inl rfl⟩

theorem Built.confined {fs₂ : Fs} (h : Built toml pluginsDir c archive fs fs₂)
    (hu : c.operation.unpacks) (ht : Tidy pluginsDir fs) (hfresh : FreshDir pluginsDir fs c.tmp)
    (hnames : ∀ m ∈ archive.manifests toml, m.name ∈ c.pluginNames toml fs) :
    Confined toml pluginsDir c fs (fs₂.prune c.tmp) ∧ Tidy pluginsDir (fs₂.prune c.tmp) := by
  obtain ⟨fs₁, hs, hrest⟩ := h
  have hscratch : ∀ l, ¬ c.Scratch l → ¬ c.tmp <+: l := fun l hl hp => hl ⟨hu, hp⟩
  have hunpack : Unchanged pluginsDir (fun l => ¬ c.Scratch l) fs fs₁ :=
    (hs.unchanged.mono hscratch).of_present fun l hp hl => by
      rw [hfresh.parent hp (hscratch l hl)]
      simp
  have hprune : Unchanged pluginsDir (fun l => ¬ c.Scratch l) fs₂ (fs₂.prune c.tmp) :=
    Unchanged.of_node (fun l hl => Fs.node_restrict_of_keep (by simpa using hscratch l hl)) rfl
  have hnode : ∀ l n, n ≠ .dir → (fs₂.prune c.tmp).node l = some n →
      ¬ c.Scratch l ∧ fs₂.node l = some n := by
    intro l n hn hl
    obtain ⟨hkeep, hl⟩ := Fs.node_of_restrict hn hl
    exact ⟨fun hscr => of_decide_eq_true hkeep hscr.2, hl⟩
  obtain rfl | ⟨m, hm, dir, hdir, hcopy⟩ := hrest
  · have hholds : (pluginRegion pluginsDir c "").Holds fs₂ fs₂ := ht.holds hunpack hs.bounded
    exact ⟨Or.inl (hunpack.trans hprune), Tidy.of_holds hholds hnode rfl⟩
  · refine ⟨Or.inr ⟨m.name, hnames m hm, dir, hdir, ?_⟩, Tidy.of_holds hcopy hnode rfl⟩
    exact ((hunpack.mono fun _ hl => hl.1).trans hcopy.unchanged).trans
      (hprune.mono fun _ hl => hl.1)

theorem built_unpack {α : Type} {rest : Io α} (ho : archive.Orderly) (ht : Tidy pluginsDir fs)
    (hfresh : FreshDir pluginsDir fs c.tmp)
    (hrest : ∀ f, (stagingRegion c.tmp archive).Holds fs f →
      rest.Ends f fun _ f' => Built toml pluginsDir c archive fs f') :
    (do unpackArchive c.cwd (stagingDir c.tmp) archive; rest).Ends (fs.set c.tmp .dir)
      fun _ f' => Built toml pluginsDir c archive fs f' := by
  refine ends_bind.2 ((keeps_unpackArchive ho _ (hfresh.holds ht)).mono ?_)
  rintro r f ⟨hf, -⟩
  cases r with
  | ok a => exact hrest f hf
  | error e => exact .of_staged (.of_holds ho hf)

theorem apart_of_unpacks (h : c.operation.unpacks → FreshDir pluginsDir fs c.tmp) :
    c.Apart pluginsDir := by
  rintro l hl ⟨hu, hp⟩
  rcases prefix_or_prefix_of_prefix hp hl with h' | h'
  · exact (h hu).apart.1 h'
  · exact (h hu).apart.2 h'

theorem remove_confined {name dir : String} (ht : Tidy pluginsDir fs)
    (hdir : plainName name = some dir) :
    (remove pluginsDir name).Ends fs fun _ fs' =>
      Unchanged pluginsDir (fun l => ¬ pluginsDir ++ [dir] <+: l) fs fs' ∧ Tidy pluginsDir fs' := by
  have hstraight : Straight fs (pluginsDir ++ [dir]).dropLast := by
    rw [dropLast_concat]
    exact fun l hl => ht.plain l (Or.inl hl)
  simp only [remove, isFile, ends_bind, ends_query, join_plainName hdir]
  split_ifs
  · simp only [removeDirAll, locateEntry, ends_bind, ends_query]
    cases hl : resolveEntry fs (Location.path (pluginsDir ++ [dir])) with
    | none => exact ⟨.refl, ht⟩
    | some l =>
      obtain rfl := eq_of_resolveEntry hstraight (by simp) hl
      simp only [found, ← Location.path_append, getLast?_concat, ends_modify, ends_pure]
      refine ⟨Unchanged.of_node (fun l hl => Fs.node_restrict_of_keep (by simpa using hl)) rfl, ?_⟩
      have hholds : (pluginRegion pluginsDir ⟨[], [], .remove name⟩ dir).Holds fs fs :=
        @Tidy.holds _ _ _ _ _ ht [] .refl ht.bounded
      exact Tidy.of_holds hholds (fun l n hn h => ⟨nofun, (Fs.node_of_restrict hn h).2⟩) rfl
  · exact ⟨.refl, ht⟩

theorem installDir_confined {cwd tmp : Location} {src : String} (ht : Tidy pluginsDir fs)
    (ha : (Invocation.mk cwd tmp (.installDir src)).Apart pluginsDir)
    (hplain : ∀ m, manifestAt toml fs (join (Location.path cwd) src) = some m →
      (plainName m.name).isSome) :
    (installFromDir toml (join (Location.path cwd) src) pluginsDir).Ends fs fun _ fs' =>
      Confined toml pluginsDir ⟨cwd, tmp, .installDir src⟩ fs fs' ∧ Tidy pluginsDir fs' := by
  have hsame : Unchanged pluginsDir
      (fun l => ¬ (Invocation.mk cwd tmp (.installDir src)).Scratch l) fs fs := .refl
  refine (ends_installFromDir ha hplain fun dir => ht.holds hsame ht.bounded).mono ?_
  rintro r fs' (rfl | ⟨m, dir, hm, hdir, h⟩)
  · exact ⟨Or.inl .refl, ht⟩
  · refine ⟨Or.inr ⟨m.name, mem_map_of_mem (Option.mem_toList.2 hm), dir, hdir,
      h.unchanged⟩, Tidy.of_holds h (fun l n _ hl => ⟨?_, hl⟩) rfl⟩
    rintro ⟨hu, -⟩
    cases hu

/-- A plain operation changes only what it may, and leaves the plugins directory tidy. -/
theorem run_confined (ht : Tidy pluginsDir fs)
    (hfresh : c.operation.unpacks → FreshDir pluginsDir fs c.tmp) (hplain : c.Plain toml fs) :
    Confined toml pluginsDir c fs (c.run toml pluginsDir fs) ∧
      Tidy pluginsDir (c.run toml pluginsDir fs) := by
  have ha := apart_of_unpacks hfresh
  obtain ⟨hnames, hop⟩ := hplain
  obtain ⟨cwd, tmp, op⟩ := c
  cases op with
  | install archive =>
    have hmanifests : ∀ m ∈ archive.manifests toml, (plainName m.name).isSome :=
      fun m hm => hnames m.name (mem_map_of_mem hm)
    have hbuilt := built_unpack hop ht (hfresh rfl) fun f hf =>
      ends_install_staged ha rfl hmanifests ht (.of_holds hop hf)
    exact Built.confined hbuilt rfl ht (hfresh rfl) fun m hm => mem_map_of_mem hm
  | installIndexed archive indexEntry =>
    have hmanifests : ∀ m ∈ archive.manifests toml, (plainName m.name).isSome :=
      fun m hm => hnames m.name (mem_map_of_mem hm)
    refine Built.confined (built_unpack hop.1 ht (hfresh rfl) fun f hf => ?_) rfl ht (hfresh rfl)
      fun m hm => mem_map_of_mem hm
    refine ends_bind.2 ((staged_reconcileEntry hop.1 hop.2 hf).mono fun r f hs => ?_)
    cases r with
    | ok a => exact ends_install_staged ha rfl hmanifests ht hs
    | error e => exact .of_staged hs
  | installDir src =>
    exact installDir_confined ht ha fun m hm => hnames m.name
      (mem_map_of_mem (Option.mem_toList.2 hm))
  | remove name =>
    obtain ⟨dir, hdir⟩ := Option.isSome_iff_exists.1 (hnames name (mem_singleton_self _))
    obtain ⟨hunchanged, htidy⟩ := remove_confined ht hdir
    exact ⟨Or.inr ⟨name, mem_singleton_self _, dir, hdir, hunchanged.mono fun _ hl => hl.2⟩, htidy⟩

/-- In every run of plain operations each one changes only its temporary directory and the directory
of one plugin that it names. -/
theorem plain_operations_confined (toml : Bytes → Option Manifest) (pluginsDir : Location)
    {fs fs' : Fs} {c : Invocation}
    (hr : ((installer toml pluginsDir).guarded fun fs c => c.Plain toml fs).Reachable fs)
    (hplain : c.Plain toml fs) (hnext : (installer toml pluginsDir).next fs c = some fs') :
    Confined toml pluginsDir c fs fs' := by
  have hstep : ∀ {f f' : Fs} {d : Invocation}, Tidy pluginsDir f → d.Plain toml f →
      (installer toml pluginsDir).next f d = some f' →
      Confined toml pluginsDir d f f' ∧ Tidy pluginsDir f' := by
    intro f f' d ht hd hn
    obtain ⟨hfresh, rfl⟩ := installer_next.1 hn
    exact run_confined ht hfresh hd
  have htidy : Tidy pluginsDir fs :=
    hr.invariant (fun _ h => h) fun f d f' _ ht hn =>
      (hstep ht (Machine.guarded_next.1 hn).1 (Machine.guarded_next.1 hn).2).2
  exact (hstep htidy hplain hnext).1

/-! ## A host -/

def host : Fs where
  nodes := [(["tmp"], .dir), (["etc"], .dir), (["etc", "motd"], .file 0)]
  next := 1

theorem tidy_host : Tidy ["plugins"] host := by
  have hfile : ∀ {l n}, n ≠ .dir → host.node l = some n →
      l = ["etc", "motd"] ∧ n = .file 0 := by
    intro l n hn h
    have hmem := Fs.mem_nodes hn h
    simp only [host, mem_cons, Prod.mk.injEq, not_mem_nil, or_false] at hmem
    grind
  refine ⟨fun l _ target h => ?_, fun l hl i hi => ?_, fun l i hi => ?_⟩
  · cases (hfile (by simp) h).2
  · rw [(hfile (by simp) hi).1] at hl
    simp at hl
  · have hi := (hfile (by simp) hi).2
    cases hi
    decide

def redisManifest (bytes : Bytes) : Option Manifest :=
  if bytes = [1] then some ⟨"redis", "lib.so"⟩ else none

def redisArchive : Archive :=
  .tarGz [some ⟨"redis/plugin.toml", .file [1]⟩, some ⟨"redis/lib.so", .file [7]⟩,
    some ⟨"redis/latest", .symlink "lib.so"⟩]

def installRedis : Invocation :=
  ⟨["home"], ["tmp", "loadr-plugin-0"], .installIndexed redisArchive "lib.so"⟩

theorem plain_operations_confined_install :
    (installRedis.run redisManifest ["plugins"] host).read
        (Location.path ["plugins", "redis", "lib.so"]) = some [7] ∧
      Confined redisManifest ["plugins"] installRedis host
        (installRedis.run redisManifest ["plugins"] host) :=
  ⟨by decide +kernel, plain_operations_confined redisManifest ["plugins"] (.init tidy_host)
    (by decide +kernel) (installer_next.2 ⟨by decide +kernel, rfl⟩)⟩

/-- A link in the archive, and a file that is unpacked through it. -/
def linkArchive : Archive :=
  .tarGz [some ⟨"p/link", .symlink "/etc"⟩, some ⟨"p/link/motd", .file [66]⟩]

theorem link_leads_out : ∃ fs c fs', (installer redisManifest ["plugins"]).Reachable fs ∧
    (installer redisManifest ["plugins"]).next fs c = some fs' ∧
      ¬ Confined redisManifest ["plugins"] c fs fs' := by
  refine ⟨host, ⟨["home"], ["tmp", "loadr-plugin-0"], .install linkArchive⟩, _, .init tidy_host,
    installer_next.2 ⟨by decide +kernel, rfl⟩, ?_⟩
  have hscratch : ¬ (Invocation.mk ["home"] ["tmp", "loadr-plugin-0"]
      (.install linkArchive)).Scratch ["etc", "motd"] := by
    rintro ⟨-, h⟩
    simp at h
  have hnode : host.node ["etc", "motd"] = some (.file 0) := by decide
  have hchanged : (Invocation.run redisManifest ["plugins"] host ⟨["home"],
      ["tmp", "loadr-plugin-0"], .install linkArchive⟩).contents 0 ≠ host.contents 0 := by
    decide +kernel
  rintro (h | ⟨name, -, dir, -, h⟩)
  · exact hchanged ((h _ hscratch).2 0 hnode)
  · refine hchanged ((h _ ⟨hscratch, ?_⟩).2 0 hnode)
    simp

end Operations

end Loadr.Plugin
