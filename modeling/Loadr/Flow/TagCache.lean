import Std.Data.ExtTreeMap
import Loadr.Flow.Metrics
import Loadr.Lib.Machine

/-!
# The cache of sample tags

A virtual user keeps the tags of its last samples, each set with its hash, and all virtual users
share a registry that interns tag sets.  `intern_tags` looks a set up under a read lock and, where
it misses, once more under the write lock; others may intern sets in between.
-/

namespace Loadr.Flow

open List Function

abbrev TagSet := Std.ExtTreeMap String String compare

structure RequestMetricEmitter where
  baseTags : TagSet
  groups : List String
deriving DecidableEq

/-- Tags for a sample: base tags, group and extras. -/
def RequestMetricEmitter.sampleTags (e : RequestMetricEmitter) (extras : List (String × String)) :
    TagSet :=
  extras.foldl (fun tags extra => tags.insert extra.1 extra.2)
    (if e.groups = [] then e.baseTags
      else e.baseTags.insert "group" ("::" ++ "::".intercalate e.groups))

structure CachedTags where
  tags : TagSet
  hash : UInt64
deriving DecidableEq

namespace TagCache

abbrev Extras := List (String × String)

-- `DefaultHasher` starts from fixed keys, so the hash is a function of the tags.
variable (hash : TagSet → UInt64)

/-! ## The registry -/

def new (tags : TagSet) : CachedTags := ⟨tags, hash tags⟩

def tagInternCap : ℕ := 4096

def lookup (tagSets : List CachedTags) (tags : TagSet) : Option CachedTags :=
  tagSets.find? (·.tags = tags)

/-- `intern_tags` under the write lock. -/
def intern (tagSets : List CachedTags) (tags : TagSet) : CachedTags × List CachedTags :=
  match lookup tagSets tags with
  -- another thread has interned this set in the meantime
  | some canonical => (canonical, tagSets)
  | none =>
    let cached := new hash tags
    (cached, if tagSets.length < tagInternCap then tagSets ++ [cached] else tagSets)

/-! ## Virtual users -/

structure Entry where
  groups : List String
  extras : Extras
  tags : CachedTags
deriving DecidableEq

structure Vu extends RequestMetricEmitter where
  baseCachedTags : CachedTags
  tagCache : List Entry := []
deriving DecidableEq

/-- What `cached_sample_tags` returns without the registry. -/
def Vu.find (vu : Vu) (extras : Extras) : Option CachedTags :=
  if extras = [] ∧ vu.groups = [] then some vu.baseCachedTags
  else (vu.tagCache.find? fun e => e.groups = vu.groups && e.extras = extras).map (·.tags)

def Vu.push (vu : Vu) (extras : Extras) (tags : CachedTags) : Vu :=
  { vu with
    tagCache := (if 64 ≤ vu.tagCache.length then [] else vu.tagCache) ++
      [⟨vu.groups, extras, tags⟩] }

inductive Thread
  | idle (vu : Vu)
  /-- `VuContext::new` before its write lock.  A parallel branch starts with groups. -/
  | creating (emitter : RequestMetricEmitter)
  /-- `cached_sample_tags` before its write lock. -/
  | calling (vu : Vu) (extras : Extras)

structure Returned where
  emitter : RequestMetricEmitter
  extras : Extras
  tags : CachedTags
deriving DecidableEq

structure State where
  tagSets : List CachedTags := []
  threads : ℕ → Option Thread := fun _ => none
  returned : List Returned := []

inductive Action
  /-- A virtual user starts.  Anyone else who interns a set does this to the registry. -/
  | new (i : ℕ) (emitter : RequestMetricEmitter)
  | pushGroup (i : ℕ) (name : String)
  | popGroup (i : ℕ)
  | call (i : ℕ) (extras : Extras)
  | write (i : ℕ)

def State.set (s : State) (i : ℕ) (t : Thread) : State :=
  { s with threads := update s.threads i (some t) }

def State.idle (s : State) (i : ℕ) : Option Vu :=
  match s.threads i with
  | some (.idle vu) => some vu
  | _ => none

def State.answer (s : State) (i : ℕ) (vu : Vu) (extras : Extras) (tags : CachedTags) : State :=
  { s.set i (.idle vu) with returned := s.returned ++ [⟨vu.toRequestMetricEmitter, extras, tags⟩] }

def next (s : State) : Action → Option State
  | .new i emitter => some <| match lookup s.tagSets emitter.baseTags with
    | some tags => s.set i (.idle ⟨emitter, tags, []⟩)
    | none => s.set i (.creating emitter)
  | .pushGroup i name => (s.idle i).map fun vu =>
    s.set i (.idle { vu with groups := vu.groups ++ [name] })
  | .popGroup i => (s.idle i).map fun vu =>
    s.set i (.idle { vu with groups := vu.groups.dropLast })
  | .call i extras => (s.idle i).map fun vu => match vu.find extras with
    | some tags => s.answer i vu extras tags
    | none => match lookup s.tagSets (vu.sampleTags extras) with
      | some tags => s.answer i (vu.push extras tags) extras tags
      | none => s.set i (.calling vu extras)
  | .write i => match s.threads i with
    | some (.creating emitter) =>
      let (tags, tagSets) := intern hash s.tagSets emitter.baseTags
      some { s.set i (.idle ⟨emitter, tags, []⟩) with tagSets }
    | some (.calling vu extras) =>
      let (tags, tagSets) := intern hash s.tagSets (vu.sampleTags extras)
      some { s.answer i (vu.push extras tags) extras tags with tagSets }
    | _ => none

def machine : Machine State Action where
  init s := s = {}
  next := next hash

/-! ## Transparency -/

variable {hash} {tagSets : List CachedTags} {tags : TagSet} {c : CachedTags}
  {extras : Extras} {vu : Vu}

theorem lookup_eq (h : ∀ c ∈ tagSets, c = new hash c.tags) (hc : lookup tagSets tags = some c) :
    c = new hash tags := by
  unfold lookup at hc
  have htags := find?_some hc
  rw [h c (mem_of_find?_eq_some hc), of_decide_eq_true htags]

theorem intern_spec (h : ∀ c ∈ tagSets, c = new hash c.tags) (tags : TagSet) :
    (intern hash tagSets tags).1 = new hash tags ∧
      ∀ c ∈ (intern hash tagSets tags).2, c = new hash c.tags := by
  unfold intern
  split
  · rename_i canonical hc
    exact ⟨lookup_eq h hc, h⟩
  · refine ⟨rfl, ?_⟩
    dsimp only
    split_ifs
    · exact forall_mem_append.2 ⟨h, forall_mem_singleton.2 rfl⟩
    · exact h

structure Vu.Ok (hash : TagSet → UInt64) (vu : Vu) : Prop where
  base : vu.baseCachedTags = new hash vu.baseTags
  entries : ∀ e ∈ vu.tagCache,
    e.tags = new hash (RequestMetricEmitter.sampleTags ⟨vu.baseTags, e.groups⟩ e.extras)

theorem Vu.Ok.find (h : vu.Ok hash) (hc : vu.find extras = some c) :
    c = new hash (vu.sampleTags extras) := by
  unfold Vu.find at hc
  split_ifs at hc with hempty
  · rw [← Option.some.inj hc, h.base]
    simp [RequestMetricEmitter.sampleTags, hempty]
  · obtain ⟨e, he, rfl⟩ := Option.map_eq_some_iff.1 hc
    have hkey := find?_some he
    simp only [Bool.and_eq_true, decide_eq_true_eq] at hkey
    rw [h.entries e (mem_of_find?_eq_some he), hkey.1, hkey.2]

theorem Vu.Ok.push (h : vu.Ok hash) (hc : c = new hash (vu.sampleTags extras)) :
    (vu.push extras c).Ok hash where
  base := h.base
  entries := by
    refine forall_mem_append.2 ⟨?_, forall_mem_singleton.2 hc⟩
    split_ifs
    · exact fun _ => nofun
    · exact h.entries

def Thread.Ok (hash : TagSet → UInt64) : Thread → Prop
  | .idle vu | .calling vu _ => vu.Ok hash
  | .creating _ => True

def Returned.Ok (hash : TagSet → UInt64) (r : Returned) : Prop :=
  r.tags = new hash (r.emitter.sampleTags r.extras)

/-- Wherever tags are kept, they are kept with their hash. -/
structure State.Ok (hash : TagSet → UInt64) (s : State) : Prop where
  tagSets : ∀ c ∈ s.tagSets, c = new hash c.tags
  threads : ∀ i, ∀ t ∈ s.threads i, t.Ok hash
  returned : ∀ r ∈ s.returned, r.Ok hash

variable {s s' : State} {i : ℕ} {t : Thread}

theorem State.Ok.set (h : s.Ok hash) (ht : t.Ok hash) : (s.set i t).Ok hash where
  tagSets := h.tagSets
  threads := (forall_update_iff s.threads fun _ (o : Option Thread) => ∀ t ∈ o, t.Ok hash).2
    ⟨fun _ he => Option.some.inj he ▸ ht, fun j _ => h.threads j⟩
  returned := h.returned

theorem State.Ok.answer (h : s.Ok hash) (hvu : vu.Ok hash)
    (hc : c = new hash (vu.sampleTags extras)) : (s.answer i vu extras c).Ok hash :=
  { h.set (t := .idle vu) hvu with
    returned := forall_mem_append.2 ⟨h.returned, forall_mem_singleton.2 hc⟩ }

theorem State.Ok.idle (h : s.Ok hash) (hvu : s.idle i = some vu) : vu.Ok hash := by
  unfold State.idle at hvu
  split at hvu
  · rename_i ht
    exact Option.some.inj hvu ▸ h.threads i _ ht
  · cases hvu

theorem State.Ok.next (h : s.Ok hash) {a : Action} (hs : next hash s a = some s') : s'.Ok hash := by
  cases a with
  | new i emitter =>
    cases hs
    split
    · rename_i hc
      exact h.set ⟨lookup_eq h.tagSets hc, fun _ => nofun⟩
    · exact h.set trivial
  | pushGroup i name | popGroup i =>
    obtain ⟨vu, hvu, rfl⟩ := Option.map_eq_some_iff.1 hs
    have hok := h.idle hvu
    exact h.set ⟨hok.base, hok.entries⟩
  | call i extras =>
    obtain ⟨vu, hvu, rfl⟩ := Option.map_eq_some_iff.1 hs
    have hok := h.idle hvu
    split
    · rename_i hc
      exact h.answer hok (hok.find hc)
    · split
      · rename_i hc
        have htags := lookup_eq h.tagSets hc
        exact h.answer (hok.push htags) htags
      · exact h.set hok
  | write i =>
    simp only [TagCache.next] at hs
    split at hs
    · rename_i emitter _
      cases hs
      obtain ⟨htags, hsets⟩ := intern_spec h.tagSets emitter.baseTags
      have hset := h.set (i := i) (t := .idle ⟨emitter, _, []⟩) ⟨htags, fun _ => nofun⟩
      exact { hset with tagSets := hsets }
    · rename_i vu extras ht
      cases hs
      have hok : vu.Ok hash := h.threads i _ ht
      obtain ⟨htags, hsets⟩ := intern_spec h.tagSets (vu.sampleTags extras)
      exact { h.answer (i := i) (hok.push htags) htags with tagSets := hsets }
    · cases hs

theorem ok_of_reachable (h : (machine hash).Reachable s) : s.Ok hash := by
  refine h.invariant ?_ fun _ _ _ _ hok hs => hok.next hs
  rintro _ rfl
  exact ⟨fun _ => nofun, fun _ _ => nofun, fun _ => nofun⟩

/-! ## Series -/

structure SeriesKey where
  metric : String
  tags : CachedTags

def SeriesKey.eq (k k' : SeriesKey) : Bool := k.metric = k'.metric && k.tags.tags = k'.tags.tags

/-- What a key feeds to the hasher of the table of series. -/
def SeriesKey.hashed (k : SeriesKey) : String × UInt64 := (k.metric, k.tags.hash)

/-- The series after a sample.  A table may miss an equal key that is hashed differently. -/
def record (series : List SeriesKey) (key : SeriesKey) : List SeriesKey :=
  if series.any fun k => k.hashed = key.hashed && k.eq key then series else series ++ [key]

theorem pairwise_record (hash : TagSet → UInt64) {keys : List SeriesKey}
    (h : ∀ k ∈ keys, k.tags = new hash k.tags.tags) {series : List SeriesKey}
    (hs : ∀ k ∈ series, k.tags = new hash k.tags.tags)
    (hp : series.Pairwise fun k k' => ¬ k.eq k') :
    (keys.foldl record series).Pairwise fun k k' => ¬ k.eq k' := by
  induction keys generalizing series with
  | nil => exact hp
  | cons key keys ih =>
    obtain ⟨hkey, h⟩ := forall_mem_cons.1 h
    rw [foldl_cons]
    unfold record
    split_ifs with hany
    · exact ih h hs hp
    · refine ih h (forall_mem_append.2 ⟨hs, forall_mem_singleton.2 hkey⟩) ?_
      refine pairwise_append.2 ⟨hp, pairwise_singleton _ _, fun k hk k' hk' heq => hany ?_⟩
      obtain rfl := mem_singleton.1 hk'
      -- equal tags are hashed equally, so the table has found the key
      have htags : k.metric = k'.metric ∧ k.tags.tags = k'.tags.tags := by
        simpa [SeriesKey.eq] using heq
      have hhash : k.hashed = k'.hashed := by
        rw [SeriesKey.hashed, SeriesKey.hashed, hs k hk, hkey, htags.1, htags.2]
      exact any_eq_true.2 ⟨k, hk, by simp [hhash, heq]⟩

/-- After every history, a call has returned the tags of the sample in the state it was made in, and
their hash; and samples of equal tags are in one series. -/
theorem cached_eq_sampleTags (hash : TagSet → UInt64) {s : State} (h : (machine hash).Reachable s) :
    (∀ r ∈ s.returned, r.tags.tags = r.emitter.sampleTags r.extras ∧
      r.tags.hash = hash r.tags.tags) ∧
    ∀ keys : List SeriesKey, (∀ k ∈ keys, ∃ r ∈ s.returned, k.tags = r.tags) →
      (keys.foldl record []).Pairwise fun k k' => ¬ k.eq k' := by
  have hok := (ok_of_reachable h).returned
  have hnew : ∀ r ∈ s.returned, r.tags = new hash r.tags.tags := fun r hr => by rw [hok r hr]; rfl
  refine ⟨fun r hr => ⟨?_, congrArg CachedTags.hash (hnew r hr)⟩, fun keys hkeys => ?_⟩
  · exact congrArg CachedTags.tags (hok r hr)
  refine pairwise_record hash (fun k hk => ?_) (fun _ => nofun) .nil
  obtain ⟨r, hr, he⟩ := hkeys k hk
  rw [he]
  exact hnew r hr

/-- Two virtual users miss the same set at the read lock; the second one finds it at the write lock
and later in its own cache. -/
def race : List Action :=
  [.new 0 ⟨∅, []⟩, .write 0, .new 1 ⟨∅, []⟩, .pushGroup 0 "g", .pushGroup 1 "g",
    .call 0 [("k", "v")], .call 1 [("k", "v")], .write 0, .write 1, .call 1 [("k", "v")]]

theorem cached_eq_sampleTags_race : ∃ s, (machine fun _ => 7).Reachable s ∧
    s.returned.length = 3 ∧ ∀ r ∈ s.returned,
      r.tags.tags = r.emitter.sampleTags r.extras ∧ r.tags.hash = 7 := by
  obtain ⟨s, hs, hlen⟩ := (machine fun _ => 7).exists_reachable_of_run rfl race
    (fun s => s.returned.length = 3) (by decide +kernel)
  exact ⟨s, hs, hlen, (cached_eq_sampleTags _ hs).1⟩

end TagCache

end Loadr.Flow
