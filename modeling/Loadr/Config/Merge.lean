import Mathlib.Data.List.Nodup

/-!
# Environment overlays

`deep_merge` lays one YAML value over another, and `apply_env` lays the block of an environment over
the document it stands in.  An environment with nothing in it leaves nothing of the document.

Keys are values up to the equality by which a mapping compares them; the order of its entries plays
no part here.
-/

namespace Loadr.Config

open List Option

inductive Value (K : Type)
  | null
  | bool (b : Bool)
  | number (n : String)
  | string (s : String)
  | sequence (items : List (Value K))
  | mapping (entries : List (K × Value K))
  | tagged (tag : String) (value : Value K)

abbrev Mapping (K : Type) := List (K × Value K)

variable {K : Type}

namespace Value

def untag : Value K → Value K
  | tagged _ value => value.untag
  | value => value

def asMapping (v : Value K) : Option (Mapping K) :=
  match v.untag with
  | mapping m => some m
  | _ => none

def isMapping : Value K → Bool
  | mapping _ => true
  | _ => false

theorem isMapping_iff {v : Value K} : v.isMapping = true ↔ ∃ m, v = mapping m := by
  cases v <;> simp [isMapping]

end Value

variable [DecidableEq K]

def Mapping.insert (k : K) (v : Value K) : Mapping K → Mapping K
  | [] => [(k, v)]
  | entry :: m => if entry.1 = k then (k, v) :: m else entry :: insert k v m

mutual

/-- Mappings merge, other values replace. -/
def deepMerge : Value K → Value K → Value K
  | .mapping base, .mapping overlay => .mapping (mergeEntries base overlay)
  | _, overlay => overlay

def mergeEntries : Mapping K → Mapping K → Mapping K
  | base, [] => base
  | base, (k, v) :: overlay =>
    mergeEntries
      (Mapping.insert k ((base.lookup k).elim v fun existing => deepMerge existing v) base) overlay

end

namespace Value

def get (v : Value K) (k : K) : Option (Value K) := v.asMapping.bind (·.lookup k)

def lookup : Value K → List K → Option (Value K)
  | v, [] => some v
  | mapping m, k :: path => (m.lookup k).bind (·.lookup path)
  | _, _ :: _ => none

/-- A value that entries and tags lead to. -/
inductive Within (w : Value K) : Value K → Prop
  | refl : Within w w
  | entry {m : Mapping K} {k : K} {v : Value K} : m.lookup k = some v → Within w v →
    Within w (mapping m)
  | tagged {tag : String} {v : Value K} : Within w v → Within w (tagged tag v)

def Distinct (v : Value K) : Prop := ∀ m, Within (mapping m) v → (m.map Prod.fst).Nodup

end Value

structure Yaml (K : Type) [DecidableEq K] where
  value : Value K
  distinct : value.Distinct

/-- The keys that are texts. -/
structure Keys (K : Type) where
  string : String → K
  asStr : K → Option String

section Env

variable (keys : Keys K) (doc : Value K) (name : String)

def availableEnvs : List String :=
  (((doc.get (keys.string "env")).bind Value.asMapping).map
    fun m => m.filterMap fun entry => keys.asStr entry.1).getD []

def envOverlay : Option (Value K) :=
  (doc.get (keys.string "env")).bind fun envs => envs.get (keys.string name)

def dropEnv : Value K → Value K
  | .mapping m => .mapping (m.filter fun entry => entry.1 ≠ keys.string "env")
  | doc => doc

/-- The result, and the document as it is left. -/
def applyEnv : Except (List String) Unit × Value K :=
  match envOverlay keys doc name with
  | none => (.error (availableEnvs keys doc), doc)
  | some overlay => (.ok (), deepMerge (dropEnv keys doc) overlay)

end Env

/-! ## What is found in a merged value -/

variable {m n base overlay : Mapping K} {b o v w : Value K} {k j : K}

theorem lookup_entry : List.lookup j ((k, v) :: m) = if j = k then some v else m.lookup j := by
  rw [lookup_cons]
  by_cases h : j = k
  · simp [h]
  · simp [h, beq_eq_false_iff_ne.2 h]

@[simp] theorem lookup_insert :
    (Mapping.insert k v m).lookup j = if j = k then some v else m.lookup j := by
  induction m with
  | nil => simp [Mapping.insert, lookup_entry]
  | cons entry m ih =>
    obtain ⟨i, w⟩ := entry
    rw [Mapping.insert]
    split_ifs <;> grind [lookup_entry]

theorem insert_of_lookup (h : m.lookup k = some v) : Mapping.insert k v m = m := by
  induction m with
  | nil => simp at h
  | cons entry m ih =>
    obtain ⟨i, w⟩ := entry
    rw [lookup_entry] at h
    rw [Mapping.insert]
    split_ifs at h ⊢ <;> simp_all

theorem lookup_mergeEntries (hkeys : (overlay.map Prod.fst).Nodup) :
    (mergeEntries base overlay).lookup k = (overlay.lookup k).elim (base.lookup k)
      fun v => some ((base.lookup k).elim v fun existing => deepMerge existing v) := by
  induction overlay generalizing base with
  | nil => rfl
  | cons entry overlay ih =>
    obtain ⟨j, v⟩ := entry
    rw [map_cons, nodup_cons] at hkeys
    rw [mergeEntries, ih hkeys.2, lookup_insert, lookup_entry]
    by_cases hk : k = j
    · subst hk
      have habsent : overlay.lookup k = none := by
        simp only [List.mem_map, not_exists, not_and] at hkeys
        simpa using fun j v hmem heq => hkeys.1 (j, v) hmem heq.symm
      simp [habsent]
    · simp [hk]

namespace Value

theorem Distinct.keys (h : (mapping m).Distinct) : (m.map Prod.fst).Nodup := h m .refl

theorem Distinct.of_lookup (h : (mapping m).Distinct) (hk : m.lookup k = some v) : v.Distinct :=
  fun n hn => h n (.entry hk hn)

theorem isMapping_of_lookup {path : List K} (h : v.lookup (k :: path) = some w) :
    v.isMapping = true := by
  cases v <;> simp_all [lookup, isMapping]

end Value

/-- What is at a path of `r`, if `r` is `b` with `o` laid over it. -/
structure Overlaid (b o r : Value K) (path : List K) : Prop where
  /-- A value that replaces is there as it is in the overlay. -/
  replaced {stem : List K} {v : Value K} : stem <+: path → o.lookup stem = some v →
    ¬ (v.isMapping ∧ (b.lookup stem).any Value.isMapping) → r.lookup path = o.lookup path
  merged {m n : Mapping K} : b.lookup path = some (.mapping m) →
    o.lookup path = some (.mapping n) → r.lookup path = some (.mapping (mergeEntries m n))
  /-- The overlay does not mention the path. -/
  kept : o.lookup path = none →
    (∀ stem v, stem <+: path → o.lookup stem = some v → v.isMapping) → r.lookup path = b.lookup path

theorem deepMerge_of_not_mapping (h : ¬ (o.isMapping ∧ b.isMapping)) : deepMerge b o = o := by
  cases b <;> cases o <;> simp_all [deepMerge, Value.isMapping]

theorem deepMerge_null (o : Value K) : deepMerge .null o = o := by
  cases o <;> rfl

theorem overlaid_of_not_mapping (h : ¬ (o.isMapping ∧ b.isMapping)) (path : List K) :
    Overlaid b o o path where
  replaced _ _ _ := rfl
  merged hb ho := by
    cases path with
    | nil => simp_all [Value.lookup, Value.isMapping]
    | cons => exact absurd ⟨Value.isMapping_of_lookup ho, Value.isMapping_of_lookup hb⟩ h
  kept hnone hstem := by
    have ho := hstem [] o (List.nil_prefix) rfl
    cases path with
    | nil => cases hnone
    | cons k path =>
      rw [hnone, eq_comm, eq_none_iff_forall_ne_some]
      exact fun w hw => h ⟨ho, Value.isMapping_of_lookup hw⟩

theorem overlaid_mappings {path : List K} (ho : (Value.mapping n).Distinct)
    (ih : ∀ {e v}, v.Distinct → Overlaid e v (deepMerge e v) path) :
    Overlaid (.mapping m) (.mapping n) (deepMerge (.mapping m) (.mapping n)) (k :: path) := by
  -- what replaces at a prefix of the path replaces below its first key
  have hbelow {stem v} (hv : (Value.mapping n).lookup stem = some v)
      (hne : ¬ (v.isMapping ∧ ((Value.mapping m).lookup stem).any Value.isMapping))
      (hpre : stem <+: k :: path) : ∃ rest, stem = k :: rest ∧ rest <+: path := by
    cases stem with
    | nil =>
      cases hv
      exact absurd ⟨rfl, rfl⟩ hne
    | cons j stem =>
      obtain ⟨rfl, hrest⟩ := cons_prefix_cons.1 hpre
      exact ⟨stem, rfl, hrest⟩
  have hlookup : (deepMerge (.mapping m) (.mapping n)).lookup (k :: path) =
      ((n.lookup k).elim (m.lookup k)
        fun v => some ((m.lookup k).elim v fun e => deepMerge e v)).bind (·.lookup path) := by
    rw [deepMerge, Value.lookup, lookup_mergeEntries ho.keys]
  constructor <;> rw [hlookup]
  · intro stem w hpre hw hne
    obtain ⟨rest, rfl, hrest⟩ := hbelow hw hne hpre
    simp only [Value.lookup] at hw hne ⊢
    cases hn : n.lookup k with
    | none => simp [hn] at hw
    | some v =>
      cases hm : m.lookup k with
      | none => rfl
      | some e =>
        rw [hn] at hw
        rw [hm] at hne
        exact (ih (ho.of_lookup hn)).replaced hrest hw hne
  · intro m' n' hb ho'
    simp only [Value.lookup] at hb ho'
    obtain ⟨e, hm, hb⟩ := bind_eq_some_iff.1 hb
    obtain ⟨v, hn, ho'⟩ := bind_eq_some_iff.1 ho'
    rw [hn, hm]
    exact (ih (ho.of_lookup hn)).merged hb ho'
  · intro hnone hmaps
    simp only [Value.lookup] at hnone ⊢
    cases hn : n.lookup k with
    | none => rfl
    | some v =>
      rw [hn] at hnone
      cases hm : m.lookup k with
      | none => exact hnone
      | some e =>
        refine (ih (ho.of_lookup hn)).kept hnone fun stem w hpre hw => ?_
        exact hmaps (k :: stem) w (cons_prefix_cons.2 ⟨rfl, hpre⟩) (by simpa [Value.lookup, hn])

theorem overlaid_deepMerge (ho : o.Distinct) (path : List K) :
    Overlaid b o (deepMerge b o) path := by
  induction path generalizing b o with
  | nil =>
    by_cases h : o.isMapping ∧ b.isMapping
    · cases b <;> cases o <;> simp_all [Value.isMapping]
      constructor <;> simp_all [Value.lookup, deepMerge, Value.isMapping]
    · rw [deepMerge_of_not_mapping h]
      exact overlaid_of_not_mapping h _
  | cons k path ih =>
    by_cases h : o.isMapping ∧ b.isMapping
    · obtain ⟨⟨n, rfl⟩, m, rfl⟩ := h.imp Value.isMapping_iff.1 Value.isMapping_iff.1
      exact overlaid_mappings ho ih
    · rw [deepMerge_of_not_mapping h]
      exact overlaid_of_not_mapping h _

/-! ## Merging twice -/

theorem mergeEntries_eq_self (h : ∀ entry ∈ overlay,
    ∃ e, base.lookup entry.1 = some e ∧ deepMerge e entry.2 = e) :
    mergeEntries base overlay = base := by
  induction overlay with
  | nil => rfl
  | cons entry overlay ih =>
    obtain ⟨e, he, hmerge⟩ := h entry (by simp)
    rw [mergeEntries, he, elim_some, hmerge, insert_of_lookup he]
    exact ih fun entry hentry => h entry (by simp [hentry])

theorem lookup_of_mem (hkeys : (m.map Prod.fst).Nodup) (h : (k, v) ∈ m) : m.lookup k = some v := by
  induction m with
  | nil => simp at h
  | cons entry m ih =>
    obtain ⟨j, w⟩ := entry
    rw [lookup_entry]
    simp only [map_cons, nodup_cons, List.mem_map] at hkeys
    grind

theorem deepMerge_deepMerge (b : Value K) {o : Value K} (ho : o.Distinct) :
    deepMerge (deepMerge b o) o = deepMerge b o := by
  by_cases hmap : o.isMapping
  · obtain ⟨n, rfl⟩ := Value.isMapping_iff.1 hmap
    -- the value that a merge has under a key of the overlay absorbs what the overlay has there
    have hentry (m : Mapping K) (hm : ∀ k v, n.lookup k = some v →
        ∃ e, m.lookup k = some (deepMerge e v)) :
        deepMerge (.mapping m) (.mapping n) = .mapping m := by
      rw [deepMerge, mergeEntries_eq_self]
      rintro ⟨k, v⟩ hmem
      have hv := lookup_of_mem ho.keys hmem
      have hlt : sizeOf v < sizeOf (Value.mapping n) := by
        have hentry := sizeOf_lt_of_mem hmem
        simp only [Prod.mk.sizeOf_spec, Value.mapping.sizeOf_spec] at hentry ⊢
        omega
      obtain ⟨e, he⟩ := hm k v hv
      exact ⟨_, he, deepMerge_deepMerge e (ho.of_lookup hv)⟩
    by_cases hb : b.isMapping
    · obtain ⟨m, rfl⟩ := Value.isMapping_iff.1 hb
      refine hentry _ fun k v hv => ?_
      rw [lookup_mergeEntries ho.keys, hv]
      cases m.lookup k with
      | none => exact ⟨.null, congrArg some (deepMerge_null v).symm⟩
      | some e => exact ⟨e, rfl⟩
    · rw [deepMerge_of_not_mapping (b := b) (by simp [hb])]
      exact hentry n fun k v hv => ⟨.null, by rw [hv, deepMerge_null]⟩
  · have hreplaces (b : Value K) : deepMerge b o = o := deepMerge_of_not_mapping (by simp [hmap])
    rw [hreplaces, hreplaces]
termination_by sizeOf o

/-! ## Environments -/

/-- Applying an environment is local: an unknown one leaves the document as it is, and of the
document's keys only `env` goes, unless the overlay has it. -/
def LocalEnv (keys : Keys K) (doc : Value K) (name : String) : Prop :=
  match envOverlay keys doc name with
  | none => (applyEnv keys doc name).2 = doc
  | some overlay => ∀ k, overlay.get k = none →
    (applyEnv keys doc name).2.get k = if k = keys.string "env" then none else doc.get k

theorem within_of_get {u : Value K} : ∀ {v w}, v.get k = some w → u.Within w → u.Within v
  | .mapping _, _, h, hu => .entry h hu
  | .tagged _ v, _, h, hu => .tagged (within_of_get (v := v) h hu)

theorem Yaml.distinct_envOverlay {keys : Keys K} {doc : Yaml K} {name : String}
    (h : envOverlay keys doc.value name = some o) : o.Distinct := by
  obtain ⟨envs, henvs, ho⟩ := bind_eq_some_iff.1 h
  exact fun m hm => doc.distinct m (within_of_get henvs (within_of_get ho hm))

theorem lookup_filter : (m.filter fun entry => entry.1 ≠ j).lookup k =
    if k = j then none else m.lookup k := by
  induction m with
  | nil => simp
  | cons entry m ih =>
    obtain ⟨i, w⟩ := entry
    by_cases hi : i = j <;> simp only [filter_cons, hi] <;> grind [lookup_entry]

theorem isMapping_dropEnv (keys : Keys K) (doc : Value K) :
    (dropEnv keys doc).isMapping = doc.isMapping := by
  cases doc <;> rfl

theorem localEnv_iff (keys : Keys K) (doc : Yaml K) (name : String) :
    LocalEnv keys doc.value name ↔ ∀ overlay, envOverlay keys doc.value name = some overlay →
      overlay.isMapping ∧ doc.value.isMapping ∨
        ∀ k, k ≠ keys.string "env" → (doc.value.get k).isSome → (overlay.get k).isSome := by
  unfold LocalEnv applyEnv
  cases hover : envOverlay keys doc.value name with
  | none => simp
  | some overlay =>
    simp only [some.injEq, forall_eq']
    by_cases hboth : overlay.isMapping ∧ doc.value.isMapping
    · refine iff_of_true (fun k hk => ?_) (.inl hboth)
      have hdistinct := Yaml.distinct_envOverlay hover
      obtain ⟨⟨n, rfl⟩, m, hm⟩ := hboth.imp Value.isMapping_iff.1 Value.isMapping_iff.1
      have hmerged : (mergeEntries (m.filter fun entry => entry.1 ≠ keys.string "env") n).lookup k =
          if k = keys.string "env" then none else m.lookup k := by
        rw [lookup_mergeEntries hdistinct.keys, show n.lookup k = none from hk, elim_none,
          lookup_filter]
      rw [hm]
      exact hmerged
    · -- the block replaces the document
      rw [deepMerge_of_not_mapping (by rwa [isMapping_dropEnv]), or_iff_right hboth]
      refine forall_congr' fun k => ?_
      by_cases hk : k = keys.string "env"
      · simp [hk]
      · simp only [hk, if_false, ne_eq, not_false_eq_true, forall_true_left]
        cases overlay.get k <;> cases doc.value.get k <;> simp

/-- Overlays are right-biased and local, but for environments whose block cannot be merged into the
document and does not mention all of its keys. -/
theorem overlays_local_iff (keys : Keys K) (b o doc : Yaml K) (name : String) :
    ((∀ path, Overlaid b.value o.value (deepMerge b.value o.value) path) ∧
      deepMerge (deepMerge b.value o.value) o.value = deepMerge b.value o.value ∧
        LocalEnv keys doc.value name) ↔
    ∀ overlay, envOverlay keys doc.value name = some overlay →
      overlay.isMapping ∧ doc.value.isMapping ∨
        ∀ k, k ≠ keys.string "env" → (doc.value.get k).isSome → (overlay.get k).isSome := by
  rw [← localEnv_iff]
  exact ⟨fun h => h.2.2,
    fun h => ⟨overlaid_deepMerge o.distinct, deepMerge_deepMerge _ o.distinct, h⟩⟩

/-- The environment `staging` has nothing in it, and the plan is gone. -/
theorem plan_lost : ∃ doc : Yaml String,
    doc.value = .mapping [("name", .string "checkout"), ("env", .mapping [("staging", .null)])] ∧
      applyEnv ⟨id, some⟩ doc.value "staging" = (.ok (), .null) ∧
        ¬ LocalEnv ⟨id, some⟩ doc.value "staging" := by
  refine ⟨⟨_, fun m hm => ?_⟩, rfl, rfl, fun h => ?_⟩
  · -- no key occurs twice in the document or in the block of environments
    cases hm with
    | refl => decide
    | entry hk hm =>
      simp only [lookup_entry, lookup_nil] at hk
      split_ifs at hk <;> cases hk
      · cases hm
      · cases hm with
        | refl => decide
        | entry hk hm =>
          simp only [lookup_entry, lookup_nil] at hk
          split_ifs at hk
          cases hk
          cases hm
  · have hname := h "name" rfl
    cases hname

end Loadr.Config
