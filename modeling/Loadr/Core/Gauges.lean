import Loadr.Core.Contents

/-!
# Gauges in shard mode

Every drain sends on the gauges of all shards, one shard after the other, and the target takes over
each of them.  So a gauge shows the last value recorded in the last of the shards that know it,
whether or not there is a newer one in another shard.
-/

namespace Loadr.Core.Gauges

open List Option

variable (hdr : Hdr)

/-! ## Runs -/

inductive Action
  | emit (vuId : ℕ) (key : SeriesKey) (value : F64)
  | drain

structure State where
  shards : MetricShards
  target : Aggregator := {}

def sample (key : SeriesKey) (value : F64) : Sample := ⟨key.metric, .gauge, value, key.tags⟩

def step (s : State) : Action → State
  | .emit vuId key value =>
    { s with shards := s.shards.record hdr (s.shards.forVu vuId) (sample key value) }
  | .drain => ⟨(s.shards.drainInto hdr s.target).1, (s.shards.drainInto hdr s.target).2⟩

def run (n : ℕ) (as : List Action) : State := as.foldl (step hdr) ⟨.new n, {}⟩

def lastAt (k : SeriesKey) (a : Aggregator) : Option F64 :=
  match a.series.lookup k with
  | some ⟨_, .gauge last _ _ _⟩ => some last
  | _ => none

/-- The value that an action leaves of the last one before, if `counts` says that it counts. -/
def Action.last (counts : ℕ → Bool) (k : SeriesKey) (before : Option F64) : Action → Option F64
  | .emit vuId key value => if counts vuId ∧ key = k then some value else before
  | .drain => before

def lastOf (counts : ℕ → Bool) (k : SeriesKey) (as : List Action) : Option F64 :=
  as.foldl (Action.last counts k) none

def latest (k : SeriesKey) (as : List Action) : Option F64 := lastOf (fun _ => true) k as

/-- The value of the latest sample in the last of `shards` shards that has one. -/
def shown (shards : ℕ) (k : SeriesKey) (as : List Action) : Option F64 :=
  (List.range shards).reverse.findSome? fun i => lastOf (fun vuId => vuId % shards = i) k as

/-! ## Aggregators of gauges -/

variable {hdr} {a target : Aggregator} {k : SeriesKey}

def OnlyGauges (a : Aggregator) : Prop :=
  ∀ k x, a.series.lookup k = some x → ∃ last min max seq, x = ⟨.gauge, .gauge last min max seq⟩

theorem onlyGauges_new : OnlyGauges {} := fun _ _ h => nomatch h

theorem OnlyGauges.cases (h : OnlyGauges a) (k : SeriesKey) :
    (a.series.lookup k = none ∧ lastAt k a = none) ∨ ∃ last min max seq,
      a.series.lookup k = some ⟨.gauge, .gauge last min max seq⟩ ∧ lastAt k a = some last := by
  unfold lastAt
  cases hl : a.series.lookup k with
  | none => exact .inl ⟨rfl, rfl⟩
  | some x =>
    obtain ⟨last, min, max, seq, rfl⟩ := h k x hl
    exact .inr ⟨last, min, max, seq, rfl, rfl⟩

theorem lastAt_of_lookup {last min max : F64} {seq : ℕ} {kind : MetricKind}
    (h : a.series.lookup k = some ⟨kind, .gauge last min max seq⟩) : lastAt k a = some last := by
  rw [lastAt, h]

theorem lookup_record_gauge (h : OnlyGauges a) (key : SeriesKey) (value : F64) :
    ∃ min max seq, (a.record hdr (sample key value)).series.lookup key =
      some ⟨.gauge, .gauge value min max seq⟩ := by
  have hkey : (sample key value).key = key := rfl
  rw [Aggregator.record, Table.lookup_upsert, if_pos hkey.symm, hkey]
  rcases h.cases key with ⟨hl, -⟩ | ⟨last, min, max, seq, hl, -⟩ <;> rw [hl] <;>
    exact ⟨_, _, _, rfl⟩

theorem lookup_record_ne (key : SeriesKey) (value : F64) (hk : k ≠ key) :
    (a.record hdr (sample key value)).series.lookup k = a.series.lookup k := by
  have hkey : (sample key value).key = key := rfl
  rw [Aggregator.record, Table.lookup_upsert, if_neg (hkey ▸ hk)]

section

variable (h : OnlyGauges a)
include h

theorem OnlyGauges.record (key : SeriesKey) (value : F64) :
    OnlyGauges (a.record hdr (sample key value)) := by
  intro k x hx
  by_cases hk : k = key
  · subst hk
    obtain ⟨min, max, seq, hl⟩ := lookup_record_gauge h k value
    rw [hl] at hx
    exact ⟨value, min, max, seq, (some.inj hx).symm⟩
  · rw [lookup_record_ne key value hk] at hx
    exact h k x hx

theorem lastAt_record (key : SeriesKey) (value : F64) :
    lastAt k (a.record hdr (sample key value)) = if key = k then some value else lastAt k a := by
  split_ifs with hk
  · subst hk
    obtain ⟨min, max, seq, hl⟩ := lookup_record_gauge h key value
    exact lastAt_of_lookup hl
  · rw [lastAt, lastAt, lookup_record_ne key value (Ne.symm hk)]

theorem lookup_takeDelta_gauge : (a.takeDelta hdr).2.series.lookup k = a.series.lookup k := by
  rw [Aggregator.lookup_takeDelta]
  rcases h.cases k with ⟨hl, -⟩ | ⟨last, min, max, seq, hl, -⟩ <;> rw [hl] <;> rfl

theorem OnlyGauges.takeDelta : OnlyGauges (a.takeDelta hdr).2 :=
  fun k x hx => h k x (lookup_takeDelta_gauge h ▸ hx)

theorem lastAt_takeDelta : lastAt k (a.takeDelta hdr).2 = lastAt k a := by
  rw [lastAt, lastAt, lookup_takeDelta_gauge h]

theorem lookup_merge_gauge (ht : OnlyGauges target) (k : SeriesKey) :
    (lastAt k a = none ∧
      (target.mergeDelta hdr (a.takeDelta hdr).1).series.lookup k = target.series.lookup k) ∨
    ∃ last min max seq, lastAt k a = some last ∧
      (target.mergeDelta hdr (a.takeDelta hdr).1).series.lookup k =
        some ⟨.gauge, .gauge last min max seq⟩ := by
  rw [Aggregator.lookup_mergeDelta Aggregator.nodup_takeDelta, Aggregator.at_takeDelta]
  rcases h.cases k with ⟨hl, hlast⟩ | ⟨last, min, max, seq, hl, hlast⟩
  · rw [hl]
    exact .inl ⟨hlast, rfl⟩
  · rw [hl]
    refine .inr ?_
    rcases ht.cases k with ⟨htl, -⟩ | ⟨last', min', max', seq', htl, -⟩ <;> rw [htl] <;>
      exact ⟨last, _, _, _, hlast, rfl⟩

theorem OnlyGauges.mergeDelta (ht : OnlyGauges target) :
    OnlyGauges (target.mergeDelta hdr (a.takeDelta hdr).1) := by
  intro k x hx
  rcases @lookup_merge_gauge hdr a target h ht k with ⟨-, hl⟩ | ⟨last, min, max, seq, -, hl⟩
  · exact ht k x (hl ▸ hx)
  · rw [hl] at hx
    exact ⟨last, min, max, seq, (some.inj hx).symm⟩

theorem lastAt_mergeDelta (ht : OnlyGauges target) :
    lastAt k (target.mergeDelta hdr (a.takeDelta hdr).1) = (lastAt k a).or (lastAt k target) := by
  rcases @lookup_merge_gauge hdr a target h ht k with ⟨hlast, hl⟩ | ⟨last, min, max, seq, hlast, hl⟩
  · rw [hlast, none_or, lastAt, lastAt, hl]
  · rw [hlast, lastAt_of_lookup hl, some_or]

end

/-! ## Shards of gauges -/

variable {shards : List Aggregator}

def lastShown (values : List (Option F64)) : Option F64 := values.reverse.findSome? id

theorem lastShown_cons (v : Option F64) (values : List (Option F64)) :
    lastShown (v :: values) = (lastShown values).or v := by
  rw [lastShown, reverse_cons, findSome?_append, ← lastShown]
  cases v <;> rfl

theorem drain_gauges (h : ∀ a ∈ shards, OnlyGauges a) (ht : OnlyGauges target) :
    (∀ a ∈ (MetricShards.drain hdr shards target).1, OnlyGauges a) ∧
    OnlyGauges (MetricShards.drain hdr shards target).2 := by
  induction shards generalizing target with
  | nil => exact ⟨fun _ ha => (nomatch ha), ht⟩
  | cons a rest ih =>
    obtain ⟨ha, hrest⟩ := forall_mem_cons.1 h
    obtain ⟨hshards, htarget⟩ := ih hrest (ha.mergeDelta ht)
    have hfirst : OnlyGauges (a.takeDelta hdr).2 := ha.takeDelta
    exact ⟨forall_mem_cons.2 ⟨hfirst, hshards⟩, htarget⟩

theorem lastAt_drain (h : ∀ a ∈ shards, OnlyGauges a) (ht : OnlyGauges target) :
    (MetricShards.drain hdr shards target).1.map (lastAt k) = shards.map (lastAt k) ∧
    lastAt k (MetricShards.drain hdr shards target).2 =
      (lastShown (shards.map (lastAt k))).or (lastAt k target) := by
  induction shards generalizing target with
  | nil => exact ⟨rfl, rfl⟩
  | cons a rest ih =>
    obtain ⟨ha, hrest⟩ := forall_mem_cons.1 h
    obtain ⟨hshards, htarget⟩ := ih hrest (ha.mergeDelta ht)
    constructor
    · rw [List.map_cons, ← hshards, ← @lastAt_takeDelta hdr a k ha]
      rfl
    · rw [List.map_cons, lastShown_cons, Option.or_assoc, ← lastAt_mergeDelta ha ht, ← htarget]
      rfl

/-! ## What is shown -/

/-- What the shards and the target show, after actions. -/
structure Shows (k : SeriesKey) (shards : ℕ) (as : List Action) (s : State) : Prop where
  gauges : ∀ a ∈ s.shards.shards, OnlyGauges a
  target_gauges : OnlyGauges s.target
  values : s.shards.shards.map (lastAt k) =
    (List.range shards).map fun i => lastOf (fun vuId => vuId % shards = i) k as
  /-- The target has no gauge that no shard has. -/
  known : shown shards k as = none → lastAt k s.target = none

theorem lastOf_append (counts : ℕ → Bool) (as : List Action) (x : Action) :
    lastOf counts k (as ++ [x]) = x.last counts k (lastOf counts k as) := by
  rw [lastOf, foldl_append]
  rfl

theorem shown_eq_lastShown (n : ℕ) (as : List Action) : shown n k as =
    lastShown ((List.range n).map fun i => lastOf (fun vuId => vuId % n = i) k as) := by
  rw [shown, lastShown, ← map_reverse, findSome?_map]
  rfl

theorem shown_eq_none_iff {n : ℕ} {as : List Action} : shown n k as = none ↔
    ∀ i < n, lastOf (fun vuId => vuId % n = i) k as = none := by
  simp [shown]

theorem last_eq_none {counts : ℕ → Bool} {before : Option F64} {x : Action}
    (h : x.last counts k before = none) : before = none := by
  cases x with
  | drain => exact h
  | emit vuId key value =>
    simp only [Action.last] at h
    split_ifs at h
    exact h

theorem Shows.emit {n : ℕ} {as : List Action} {s : State} (h : Shows k n as s) (vuId : ℕ)
    (key : SeriesKey) (value : F64) :
    Shows k n (as ++ [.emit vuId key value]) (step hdr s (.emit vuId key value)) := by
  have hlen : s.shards.shards.length = n := by
    simpa using congrArg List.length h.values
  have hidx : s.shards.forVu vuId % s.shards.len = vuId % n := by
    rw [MetricShards.forVu, MetricShards.len, hlen, Nat.mod_mod]
  have hshards : (step hdr s (.emit vuId key value)).shards.shards =
      s.shards.shards.modify (vuId % n) (.record hdr (sample key value)) :=
    congrArg (fun i => s.shards.shards.modify i (.record hdr (sample key value))) hidx
  refine ⟨?_, h.target_gauges, ?_, fun hnone => h.known ?_⟩
  · rw [hshards]
    intro a ha
    obtain ⟨j, hj⟩ := mem_iff_getElem?.1 ha
    rw [getElem?_modify] at hj
    obtain ⟨b, hb, rfl⟩ := map_eq_some_iff.1 hj
    have hgauges := h.gauges b (mem_of_getElem? hb)
    split_ifs
    · exact hgauges.record key value
    · exact hgauges
  · rw [hshards]
    refine ext_getElem? fun j => ?_
    by_cases hj : j < n
    · have hb : s.shards.shards[j]? = some (s.shards.shards[j]) := getElem?_eq_getElem _
      have hgauges := h.gauges _ (getElem_mem (hlen.symm ▸ hj))
      have hvalue := congrArg (·[j]?) h.values
      simp only [getElem?_map, hb, getElem?_range hj, Option.map_some, some.injEq] at hvalue
      simp only [getElem?_map, getElem?_modify, hb, getElem?_range hj,
        Option.map_eq_map, Option.map_some, lastOf_append, Action.last, ← hvalue]
      by_cases hvu : vuId % n = j
      · simp [hvu, lastAt_record hgauges]
      · simp [hvu]
    · simp [hlen, hj]
  · rw [shown_eq_none_iff] at hnone ⊢
    intro i hi
    have hnone := hnone i hi
    rw [lastOf_append] at hnone
    exact last_eq_none hnone

theorem Shows.drain {n : ℕ} {as : List Action} {s : State} (h : Shows k n as s) :
    Shows k n (as ++ [.drain]) (step hdr s .drain) ∧
      lastAt k (step hdr s .drain).target = shown n k as := by
  obtain ⟨hgauges, htarget⟩ := @drain_gauges hdr s.target s.shards.shards h.gauges h.target_gauges
  obtain ⟨hvalues, hlast⟩ := @lastAt_drain hdr s.target k s.shards.shards h.gauges h.target_gauges
  have hsame (counts : ℕ → Bool) : lastOf counts k (as ++ [.drain]) = lastOf counts k as :=
    lastOf_append counts as .drain
  have hshown : shown n k (as ++ [.drain]) = shown n k as := by
    simp only [shown, hsame]
  have hlast : lastAt k (step hdr s .drain).target = shown n k as := by
    rw [h.values, ← shown_eq_lastShown] at hlast
    refine hlast.trans ?_
    cases hnone : shown n k as with
    | none => rw [h.known hnone]; rfl
    | some v => rfl
  refine ⟨⟨hgauges, htarget, ?_, fun hnone => hlast.trans (hshown ▸ hnone)⟩, hlast⟩
  simp only [hsame]
  exact hvalues.trans h.values

theorem shows_run (hdr : Hdr) (n : ℕ) (k : SeriesKey) (as : List Action) :
    Shows k (max n 1) as (run hdr n as) := by
  induction as using List.reverseRecOn with
  | nil =>
    have hnone (counts : ℕ → Bool) : lastOf counts k [] = none := rfl
    refine ⟨fun a ha => ?_, onlyGauges_new, ?_, fun _ => rfl⟩
    · obtain rfl := eq_of_mem_replicate ha
      exact onlyGauges_new
    · simp only [hnone, map_const', length_range]
      exact map_replicate
  | append_singleton as x ih =>
    rw [run, foldl_append, ← run]
    cases x with
    | emit vuId key value => exact ih.emit vuId key value
    | drain => exact ih.drain.1

/-- After a drain, the gauges show their latest values if and only if in each of them the latest
sample in the last shard that has one is as good as the latest of all. -/
theorem gauges_latest_iff (hdr : Hdr) (n : ℕ) (as : List Action) :
    (∀ k, isAdditiveGauge k.metric = false →
      lastAt k (run hdr n (as ++ [.drain])).target = latest k as) ↔
    ∀ k, isAdditiveGauge k.metric = false → shown (max n 1) k as = latest k as := by
  refine forall_congr' fun k => forall_congr' fun _ => ?_
  have hlast : lastAt k (step hdr (run hdr n as) .drain).target = shown (max n 1) k as :=
    (shows_run hdr n k as).drain.2
  have hrun : run hdr n (as ++ [.drain]) = step hdr (run hdr n as) .drain := by
    rw [run, foldl_append, ← run]
    rfl
  rw [hrun, hlast]

/-- A gauge set to 5 by the virtual user of the second shard, and then to 7 by that of the first. -/
theorem stale_gauge_shown :
    lastAt ⟨"queue", []⟩ (run plainHdr 2 ([.emit 1 ⟨"queue", []⟩ (.fin 5),
      .emit 0 ⟨"queue", []⟩ (.fin 7)] ++ [.drain])).target = some (.fin 5) ∧
    latest ⟨"queue", []⟩ [.emit 1 ⟨"queue", []⟩ (.fin 5), .emit 0 ⟨"queue", []⟩ (.fin 7)] =
      some (.fin 7) := by
  decide +kernel

end Loadr.Core.Gauges
