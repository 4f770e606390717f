import Loadr.Core.Aggregate

/-!
# What a series stands for

A series stands for the values it was given, of which it has sent on some: `Represents held unsent`
says so of its fields, and every operation of the aggregator has its effect on the two multisets.

The last value of a gauge and the sum of a trend are not described: the first depends on the order
of the values, the second is rebuilt from buckets when a delta is merged.
-/

namespace Loadr.Core

open F64 Option

variable {hdr : Hdr}

/-! ## Extremes -/

section Extremes

variable {held sent amount : Multiset F64} {v : F64}

theorem lowest_cons : lowest (v ::ₘ held) = min (lowest held) v :=
  (Multiset.fold_cons_left min _ v held).trans (Std.Commutative.comm _ _)

theorem highest_cons : highest (v ::ₘ held) = max (highest held) v :=
  (Multiset.fold_cons_left max _ v held).trans (Std.Commutative.comm _ _)

section

variable (hamount : amount ≤ held) (hsent : held ≤ sent + amount)
include hamount hsent

theorem fold_merge {op : F64 → F64 → F64} [Std.Commutative op] [Std.Associative op]
    [Std.IdempotentOp op] {b : F64} :
    op (sent.fold op b) (held.fold op b) = (sent + amount).fold op b := by
  have habsorb : op (amount.fold op b) (held.fold op b) = held.fold op b := fold_absorb hamount
  have hadd : (sent + amount).fold op b = op (sent.fold op b) (amount.fold op b) :=
    fold_add_of_idempotent sent amount
  calc op (sent.fold op b) (held.fold op b)
      = op (sent.fold op b) (op (amount.fold op b) (held.fold op b)) := by rw [habsorb]
    _ = op (op (sent.fold op b) (amount.fold op b)) (held.fold op b) :=
        (Std.Associative.assoc _ _ _).symm
    _ = op ((sent + amount).fold op b) (held.fold op b) := by rw [hadd]
    _ = op (held.fold op b) ((sent + amount).fold op b) := Std.Commutative.comm _ _
    _ = (sent + amount).fold op b := fold_absorb hsent

theorem lowest_merge : min (lowest sent) (lowest held) = lowest (sent + amount) :=
  fold_merge hamount hsent

theorem highest_merge : max (highest sent) (highest held) = highest (sent + amount) :=
  fold_merge hamount hsent

end

end Extremes

/-! ## Series -/

def SeriesData.kind : SeriesData → MetricKind
  | .counter _ _ => .counter
  | .gauge _ _ _ _ => .gauge
  | .rate _ _ _ _ => .rate
  | .trend _ _ _ _ _ _ => .trend

def passes (values : Multiset F64) : ℕ := values.countP fun v => v.eq 0 = false

/-- The series was given `held` and has not sent on `unsent` of it. -/
def SeriesData.Represents (hdr : Hdr) (held unsent : Multiset F64) : SeriesData → Prop
  | .counter total flushed =>
    (∀ x ∈ held, x.isFinite = true) ∧ total = held.sum ∧
      ∃ q, flushed = fin q ∧ flushed + unsent.sum = total
  | .gauge _ min max _ => min = lowest held ∧ max = highest held
  | .rate p total flushedPasses flushedTotal =>
    p = passes held ∧ total = held.card ∧ flushedPasses + passes unsent = p ∧
      flushedTotal + unsent.card = total
  | .trend hist deltaHist _ count min max =>
    hist = held.map hdr.scaled ∧ deltaHist = unsent.map hdr.scaled ∧ count = held.card ∧
      min = lowest held ∧ max = highest held

namespace SeriesData

variable {held unsent amount sent : Multiset F64} {v : F64} {seq : ℕ} {data : SeriesData}
  {kind : MetricKind}

@[simp] theorem kind_new (kind : MetricKind) : (new kind).kind = kind := by
  cases kind <;> rfl

@[simp] theorem kind_record : (data.record hdr v seq).kind = data.kind := by
  cases data <;> rfl

@[simp] theorem kind_flush : data.flush.kind = data.kind := by
  cases data with
  | counter | rate => simp only [flush]; split_ifs <;> rfl
  | _ => rfl

@[simp] theorem kind_restore (d : SeriesDeltaData) : (data.restore hdr d).kind = data.kind := by
  cases data <;> cases d <;> rfl

@[simp] theorem kind_merge (d : SeriesDeltaData) : (data.merge hdr d seq).kind = data.kind := by
  cases data <;> cases d <;> try rfl
  simp only [merge]
  split <;> rfl

@[simp] theorem flush_new (kind : MetricKind) : (new kind).flush = new kind := by
  cases kind with
  | counter => simp [new, flush, F64.eq, zero_def, fin_sub_fin]
  | _ => rfl

theorem represents_new (hdr : Hdr) (kind : MetricKind) : (new kind).Represents hdr 0 0 := by
  cases kind with
  | counter => exact ⟨by simp, rfl, 0, rfl, by simp [zero_def]⟩
  | gauge => exact ⟨rfl, rfl⟩
  | rate => exact ⟨rfl, rfl, rfl, rfl⟩
  | trend => exact ⟨rfl, rfl, rfl, rfl, rfl⟩

theorem passes_cons : passes (v ::ₘ held) = if v.eq 0 then passes held else passes held + 1 := by
  unfold passes
  cases h : v.eq 0 with
  | true | false => simp [h]

theorem passes_add (s t : Multiset F64) : passes (s + t) = passes s + passes t :=
  Multiset.countP_add _ s t

theorem Represents.record (h : data.Represents hdr held unsent)
    (hv : data.kind = .counter → v.isFinite = true) :
    (data.record hdr v seq).Represents hdr (v ::ₘ held) (v ::ₘ unsent) := by
  cases data with
  | counter total flushed =>
    obtain ⟨hfin, rfl, q, rfl, hflushed⟩ := h
    refine ⟨?_, ?_, q, rfl, ?_⟩
    · intro x hx
      rcases Multiset.mem_cons.1 hx with rfl | hx
      · exact hv rfl
      · exact hfin x hx
    · rw [Multiset.sum_cons, add_comm]
    · rw [Multiset.sum_cons, ← hflushed, add_left_comm, add_comm]
  | gauge last lo hi s =>
    obtain ⟨rfl, rfl⟩ := h
    exact ⟨lowest_cons.symm, highest_cons.symm⟩
  | rate p total fp ft =>
    obtain ⟨rfl, rfl, hp, ht⟩ := h
    refine ⟨passes_cons.symm, (Multiset.card_cons _ _).symm, ?_, ?_⟩
    · rw [passes_cons]
      split_ifs <;> omega
    · rw [Multiset.card_cons]
      omega
  | trend hist deltaHist sum count lo hi =>
    obtain ⟨rfl, rfl, rfl, rfl, rfl⟩ := h
    exact ⟨(Multiset.map_cons _ _ _).symm, (Multiset.map_cons _ _ _).symm,
      (Multiset.card_cons _ _).symm, lowest_cons.symm, highest_cons.symm⟩

theorem eq_zero_iff {x : F64} : x.eq 0 = true ↔ x = 0 := by
  cases x <;> simp [F64.eq, zero_def]

theorem counter_unsent {total flushed : F64}
    (h : (counter total flushed).Represents hdr held unsent) : total - flushed = unsent.sum := by
  obtain ⟨-, -, q, rfl, hflushed⟩ := h
  rw [← hflushed, add_sub_cancel_fin]

theorem Represents.flush (h : data.Represents hdr held unsent) :
    data.flush.Represents hdr held 0 := by
  cases data with
  | counter total flushed =>
    have hunsent := counter_unsent h
    obtain ⟨hfin, htotal, q, rfl, hflushed⟩ := h
    simp only [SeriesData.flush]
    split_ifs with h0
    · rw [hunsent, eq_zero_iff] at h0
      exact ⟨hfin, htotal, q, rfl, by rw [← hflushed, h0, Multiset.sum_zero]⟩
    · obtain ⟨t, ht⟩ := sum_finite hfin
      exact ⟨hfin, htotal, t, htotal.trans ht, by rw [Multiset.sum_zero, add_zero]⟩
  | gauge => exact h
  | rate p total fp ft =>
    obtain ⟨hp, ht, hfp, hft⟩ := h
    simp only [SeriesData.flush]
    split_ifs with h0
    · have hcard : unsent.card = 0 := by omega
      rw [Multiset.card_eq_zero] at hcard
      subst hcard
      exact ⟨hp, ht, hfp, hft⟩
    · exact ⟨hp, ht, rfl, rfl⟩
  | trend =>
    obtain ⟨hhist, -, hcount, hlo, hhi⟩ := h
    exact ⟨hhist, rfl, hcount, hlo, hhi⟩

end SeriesData

/-! ## Deltas -/

/-- The delta carries `amount` from a series that was given `held`; there is none if there was
nothing to send. -/
def Carries (hdr : Hdr) (held amount : Multiset F64) :
    MetricKind → Option SeriesDeltaData → Prop
  | .counter, none => (∀ x ∈ held, x.isFinite = true) ∧ amount.sum = 0
  | .counter, some (.counter delta) => (∀ x ∈ held, x.isFinite = true) ∧ delta = amount.sum
  | .gauge, none => held = 0
  | .gauge, some (.gauge _ min max) => min = lowest held ∧ max = highest held
  | .rate, none => amount = 0
  | .rate, some (.rate p total) => p = passes amount ∧ total = amount.card
  | .trend, none => amount = 0
  | .trend, some (.trend hdrB64 _ _ min max) =>
    hdr.deserialize hdrB64 = some (amount.map hdr.scaled) ∧ min = lowest held ∧ max = highest held
  | _, _ => False

variable {held' : Multiset F64}

namespace SeriesData

variable {held unsent amount sent : Multiset F64} {seq : ℕ} {data : SeriesData}

theorem Represents.carries (h : data.Represents hdr held unsent) :
    Carries hdr held unsent data.kind (data.delta hdr) := by
  cases data with
  | counter total flushed =>
    have hunsent := counter_unsent h
    simp only [kind, delta, hunsent]
    split_ifs with h0
    · exact ⟨h.1, eq_zero_iff.1 h0⟩
    · exact ⟨h.1, rfl⟩
  | gauge => exact h
  | rate p total fp ft =>
    obtain ⟨hp, ht, hfp, hft⟩ := h
    simp only [kind, delta]
    split_ifs with h0
    · exact Multiset.card_eq_zero.1 (by omega)
    · exact ⟨by omega, by omega⟩
  | trend hist deltaHist =>
    obtain ⟨-, rfl, -, hlo, hhi⟩ := h
    simp only [kind, delta]
    split_ifs with h0
    · exact Multiset.map_eq_zero.1 h0
    · exact ⟨hdr.deserialize_serialize _, hlo, hhi⟩

theorem Represents.merge {d : SeriesDeltaData} (h : data.Represents hdr sent unsent)
    (hd : Carries hdr held amount data.kind (some d)) (hamount : amount ≤ held)
    (hsent : held ≤ sent + amount) :
    (data.merge hdr d seq).Represents hdr (sent + amount) (unsent + amount) := by
  cases data <;> cases d <;> try exact hd.elim
  · obtain ⟨hfin, rfl, q, rfl, hflushed⟩ := h
    obtain ⟨hfin', rfl⟩ := hd
    refine ⟨?_, (Multiset.sum_add _ _).symm, q, rfl, ?_⟩
    · intro x hx
      rcases Multiset.mem_add.1 hx with hx | hx
      · exact hfin x hx
      · exact hfin' x (Multiset.mem_of_le hamount hx)
    · rw [Multiset.sum_add, ← add_assoc, hflushed]
  · obtain ⟨rfl, rfl⟩ := h
    obtain ⟨rfl, rfl⟩ := hd
    exact ⟨lowest_merge hamount hsent, highest_merge hamount hsent⟩
  · obtain ⟨rfl, rfl, hfp, hft⟩ := h
    obtain ⟨rfl, rfl⟩ := hd
    exact ⟨(passes_add _ _).symm, (Multiset.card_add _ _).symm, by rw [passes_add]; omega,
      by rw [Multiset.card_add]; omega⟩
  · obtain ⟨rfl, rfl, rfl, rfl, rfl⟩ := h
    obtain ⟨hdec, rfl, rfl⟩ := hd
    simp only [SeriesData.merge, hdec]
    exact ⟨(Multiset.map_add _ _ _).symm, (Multiset.map_add _ _ _).symm, by simp,
      lowest_merge hamount hsent, highest_merge hamount hsent⟩

theorem Represents.merge_none (h : data.Represents hdr sent unsent)
    (hd : Carries hdr held amount data.kind none) (hamount : amount ≤ held)
    (hsent : held ≤ sent + amount) :
    data.Represents hdr (sent + amount) (unsent + amount) := by
  cases data with
  | counter total flushed =>
    have hmerge : ((counter total flushed).merge hdr (.counter 0) 0).Represents hdr
        (sent + amount) (unsent + amount) := h.merge ⟨hd.1, hd.2.symm⟩ hamount hsent
    rwa [SeriesData.merge, add_zero] at hmerge
  | gauge =>
    obtain rfl : amount = 0 := Multiset.le_zero.1 ((show held = 0 from hd) ▸ hamount)
    simpa using h
  | rate | trend =>
    obtain rfl : amount = 0 := hd
    simpa using h

theorem Represents.restore_none (h : data.Represents hdr held unsent)
    (hd : Carries hdr held' amount data.kind none) :
    data.Represents hdr held (unsent + amount) := by
  cases data with
  | counter total flushed =>
    obtain ⟨hfin, htotal, q, rfl, hflushed⟩ := h
    exact ⟨hfin, htotal, q, rfl, by rw [Multiset.sum_add, hd.2, add_zero, hflushed]⟩
  | gauge => exact h
  | rate | trend =>
    obtain rfl : amount = 0 := hd
    simpa using h

theorem Represents.restore {d : SeriesDeltaData} (h : data.Represents hdr held unsent)
    (hd : Carries hdr held' amount data.kind (some d)) (hle : unsent + amount ≤ held) :
    (data.restore hdr d).Represents hdr held (unsent + amount) := by
  cases data <;> cases d <;> try exact hd.elim
  · obtain ⟨hfin, rfl, q, rfl, hflushed⟩ := h
    obtain ⟨-, rfl⟩ := hd
    have hamount : amount ≤ held := (Multiset.le_add_left _ _).trans hle
    obtain ⟨t, ht⟩ := sum_finite fun x hx => hfin x (Multiset.mem_of_le hamount hx)
    refine ⟨hfin, rfl, q - t, by rw [ht, fin_sub_fin], ?_⟩
    rw [Multiset.sum_add, ← hflushed, ht, fin_sub_fin]
    cases unsent.sum with
    | fin u => exact congrArg fin (by ring)
    | _ => rfl
  · exact h
  · obtain ⟨rfl, rfl, hfp, hft⟩ := h
    obtain ⟨rfl, rfl⟩ := hd
    have hpasses := Multiset.countP_le_of_le (fun v : F64 => v.eq 0 = false) hle
    have hcard := Multiset.card_le_card hle
    rw [← passes, ← passes, passes_add] at hpasses
    rw [Multiset.card_add] at hcard
    exact ⟨rfl, rfl, by rw [passes_add]; omega, by rw [Multiset.card_add]; omega⟩
  · obtain ⟨rfl, rfl, rfl, rfl, rfl⟩ := h
    obtain ⟨hdec, -, -⟩ := hd
    simp only [SeriesData.restore, hdec]
    exact ⟨rfl, (Multiset.map_add _ _ _).symm, rfl, rfl, rfl⟩

end SeriesData

/-! ## Aggregators -/

def MetricsDelta.at (d : MetricsDelta) (k : SeriesKey) : Option SeriesDelta :=
  d.find? fun s => s.key = k

/-- The delta carries `amount` under a key, from a series that was given `held`. -/
structure MetricsDelta.Carries (hdr : Hdr) (kind : MetricKind) (k : SeriesKey)
    (held amount : Multiset F64) (d : MetricsDelta) : Prop where
  nodup : (d.map SeriesDelta.key).Nodup
  kind_eq : ∀ s, MetricsDelta.at d k = some s → s.kind = kind
  carries : Core.Carries hdr held amount kind ((MetricsDelta.at d k).map (·.data))
  amount_le : amount ≤ held

namespace MetricsDelta

variable {k : SeriesKey} {kind : MetricKind} {held amount : Multiset F64} {d d' : MetricsDelta}

theorem at_eq_some_iff {e : SeriesDelta} (h : (d.map SeriesDelta.key).Nodup) :
    MetricsDelta.at d k = some e ↔ e ∈ d ∧ e.key = k :=
  Table.find?_eq_some_iff h

theorem Carries.perm (h : d.Carries hdr kind k held amount) (hp : d'.Perm d) :
    MetricsDelta.Carries hdr kind k held amount d' := by
  have hat : MetricsDelta.at d' k = MetricsDelta.at d k := Table.find?_perm h.nodup hp
  refine ⟨(hp.map _).nodup_iff.2 h.nodup, ?_, ?_, h.amount_le⟩
  · rw [hat]
    exact h.kind_eq
  · rw [hat]
    exact h.carries

end MetricsDelta

namespace Aggregator

variable {a : Aggregator} {k : SeriesKey} {kind : MetricKind} {held unsent amount : Multiset F64}

def dataAt (kind : MetricKind) (k : SeriesKey) (a : Aggregator) : SeriesData :=
  ((a.series.lookup k).map (·.data)).getD (.new kind)

/-- The series of a key was given `held` and has not sent on `unsent` of it. -/
structure Holds (hdr : Hdr) (kind : MetricKind) (k : SeriesKey) (held unsent : Multiset F64)
    (a : Aggregator) : Prop where
  kind_eq : ∀ s, a.series.lookup k = some s → s.kind = kind
  data_kind : (a.dataAt kind k).kind = kind
  represents : (a.dataAt kind k).Represents hdr held unsent
  unsent_le : unsent ≤ held
  gauge_present : kind = .gauge → a.series.lookup k = none → held = 0

theorem dataAt_of_lookup {s : Series} (h : a.series.lookup k = some s) :
    a.dataAt kind k = s.data := by
  rw [dataAt, h]
  rfl

theorem dataAt_of_none (h : a.series.lookup k = none) : a.dataAt kind k = .new kind := by
  rw [dataAt, h]
  rfl

theorem dataAt_congr {kind' : MetricKind} (h : a.series.lookup k = none → kind' = kind) :
    a.dataAt kind k = a.dataAt kind' k := by
  cases hl : a.series.lookup k with
  | none => rw [h hl]
  | some s => rw [dataAt_of_lookup hl, dataAt_of_lookup hl]

theorem holds_new (hdr : Hdr) (kind : MetricKind) (k : SeriesKey) : Holds hdr kind k 0 0 {} where
  kind_eq s h := by cases h
  data_kind := SeriesData.kind_new kind
  represents := SeriesData.represents_new hdr kind
  unsent_le := le_rfl
  gauge_present _ _ := rfl

variable {a' : Aggregator} {d : MetricsDelta}

theorem Holds.congr (h : a.Holds hdr kind k held unsent)
    (hlookup : a'.series.lookup k = a.series.lookup k) : a'.Holds hdr kind k held unsent where
  kind_eq := hlookup ▸ h.kind_eq
  data_kind := by rw [dataAt, hlookup]; exact h.data_kind
  represents := by rw [dataAt, hlookup]; exact h.represents
  unsent_le := h.unsent_le
  gauge_present := hlookup ▸ h.gauge_present

theorem lookup_of_reordered {b : Aggregator} (hab : a.reordered b = true) (k : SeriesKey) :
    b.series.lookup k = a.series.lookup k := by
  have hperm := of_decide_eq_true (Bool.and_eq_true_iff.1 hab).1
  have hperm : a.series.Reordered b.series := hperm
  exact (hperm.lookup k).symm

theorem Holds.reordered {b : Aggregator} (h : a.Holds hdr kind k held unsent)
    (hab : a.reordered b = true) : b.Holds hdr kind k held unsent :=
  h.congr (lookup_of_reordered hab k)

theorem Holds.change {s : Series} {unsent' : Multiset F64} (hlookup : a'.series.lookup k = some s)
    (hkind : s.kind = kind) (hdata : s.data.kind = kind)
    (hrep : s.data.Represents hdr held' unsent') (hle : unsent' ≤ held') :
    a'.Holds hdr kind k held' unsent' where
  kind_eq t ht := by
    rw [hlookup] at ht
    exact some.inj ht ▸ hkind
  data_kind := by rw [dataAt_of_lookup hlookup]; exact hdata
  represents := by rw [dataAt_of_lookup hlookup]; exact hrep
  unsent_le := hle
  gauge_present _ hnone := by
    rw [hlookup] at hnone
    cases hnone

theorem lookup_getD (h : a.Holds hdr kind k held unsent) {kind' : MetricKind}
    (hnew : a.series.lookup k = none → kind' = kind) :
    ((a.series.lookup k).getD (.new kind')).kind = kind ∧
      ((a.series.lookup k).getD (.new kind')).data = a.dataAt kind k := by
  cases hl : a.series.lookup k with
  | none =>
    obtain rfl := hnew hl
    exact ⟨rfl, (dataAt_of_none hl).symm⟩
  | some s => exact ⟨h.kind_eq s hl, (dataAt_of_lookup hl).symm⟩

theorem Holds.record {s : Sample} (h : a.Holds hdr kind s.key held unsent)
    (hkind : a.series.lookup s.key = none → s.kind = kind)
    (hfin : kind = .counter → s.value.isFinite = true) :
    (a.record hdr s).Holds hdr kind s.key (s.value ::ₘ held) (s.value ::ₘ unsent) := by
  obtain ⟨hk, hd⟩ := lookup_getD h hkind
  have hlookup := Table.lookup_upsert a.series s.key s.key (.new s.kind)
    (.mapData (.record hdr s.value (a.seq + 1)))
  rw [if_pos rfl] at hlookup
  refine .change hlookup hk ?_ ?_ (Multiset.cons_le_cons _ h.unsent_le)
  · rw [Series.mapData, hd, SeriesData.kind_record, h.data_kind]
  · rw [Series.mapData, hd]
    exact h.represents.record fun hc => hfin (h.data_kind.symm.trans hc)

theorem Holds.record_of_ne {s : Sample} (h : a.Holds hdr kind k held unsent) (hk : s.key ≠ k) :
    (a.record hdr s).Holds hdr kind k held unsent :=
  h.congr (by rw [Aggregator.record, Table.lookup_upsert, if_neg (Ne.symm hk)])

theorem lookup_takeDelta : (a.takeDelta hdr).2.series.lookup k =
    (a.series.lookup k).map (.mapData .flush) :=
  Table.lookup_mapValues _ _ _

theorem key_seriesDelta (p : Σ _ : SeriesKey, Series) (d : SeriesDelta)
    (h : seriesDelta hdr p = some d) : d.key = p.1 := by
  obtain ⟨data, -, rfl⟩ := map_eq_some_iff.1 h
  rfl

theorem at_takeDelta : MetricsDelta.at (a.takeDelta hdr).1 k =
    (a.series.lookup k).bind fun s => seriesDelta hdr ⟨k, s⟩ :=
  Table.find?_filterMap key_seriesDelta a.series k

theorem nodup_takeDelta : ((a.takeDelta hdr).1.map SeriesDelta.key).Nodup :=
  Table.nodup_filterMap key_seriesDelta a.series

theorem Holds.absent {unsent' : Multiset F64} (hlookup : a'.series.lookup k = none)
    (hrep : (SeriesData.new kind).Represents hdr held' unsent') (hle : unsent' ≤ held')
    (hgauge : kind = .gauge → held' = 0) :
    a'.Holds hdr kind k held' unsent' where
  kind_eq t ht := by
    rw [hlookup] at ht
    cases ht
  data_kind := by rw [dataAt_of_none hlookup, SeriesData.kind_new]
  represents := by rw [dataAt_of_none hlookup]; exact hrep
  unsent_le := hle
  gauge_present hk _ := hgauge hk

theorem Holds.takeDelta (h : a.Holds hdr kind k held unsent) :
    (a.takeDelta hdr).2.Holds hdr kind k held 0 := by
  have hrep := h.represents.flush
  have hle := Multiset.zero_le held
  cases hl : a.series.lookup k with
  | none =>
    have hlookup : (a.takeDelta hdr).2.series.lookup k = none := by
      rw [lookup_takeDelta, hl, map_none]
    rw [dataAt_of_none hl, SeriesData.flush_new] at hrep
    exact .absent hlookup hrep hle fun hk => h.gauge_present hk hl
  | some s =>
    have hlookup : (a.takeDelta hdr).2.series.lookup k = some (s.mapData .flush) := by
      rw [lookup_takeDelta, hl, map_some]
    have hdata : a.dataAt kind k = s.data := dataAt_of_lookup hl
    refine .change hlookup (h.kind_eq s hl) ?_ ?_ hle
    · rw [Series.mapData, SeriesData.kind_flush, ← hdata, h.data_kind]
    · rw [Series.mapData, ← hdata]
      exact hrep

theorem Holds.carries (h : a.Holds hdr kind k held unsent) :
    MetricsDelta.Carries hdr kind k held unsent (a.takeDelta hdr).1 := by
  have hcarries := h.represents.carries
  rw [h.data_kind] at hcarries
  refine ⟨nodup_takeDelta, ?_, ?_, h.unsent_le⟩
  · intro d hd
    rw [at_takeDelta] at hd
    obtain ⟨s, hs, hd⟩ := bind_eq_some_iff.1 hd
    obtain ⟨data, -, rfl⟩ := map_eq_some_iff.1 hd
    exact h.kind_eq s hs
  · rw [at_takeDelta]
    cases hl : a.series.lookup k with
    | some s =>
      rw [dataAt_of_lookup hl] at hcarries
      rw [bind_some, seriesDelta, map_map]
      simpa [Function.comp_def] using hcarries
    | none =>
      rw [dataAt_of_none hl] at hcarries
      cases kind with
      | gauge => exact h.gauge_present rfl hl
      | counter =>
        simpa [SeriesData.new, SeriesData.delta, F64.eq, zero_def, fin_sub_fin] using hcarries
      | rate | trend => exact hcarries

theorem lookup_mergeDelta (hd : (d.map SeriesDelta.key).Nodup) :
    (a.mergeDelta hdr d).series.lookup k =
      match MetricsDelta.at d k with
      | some e => some (((a.series.lookup k).getD (.new e.kind)).mapData
          (.merge hdr e.data (a.seq + 1)))
      | none => a.series.lookup k := by
  rw [Aggregator.mergeDelta, Table.lookup_upserts hd, ← MetricsDelta.at]
  cases MetricsDelta.at d k <;> rfl

theorem lookup_restoreDelta (hd : (d.map SeriesDelta.key).Nodup) :
    (a.restoreDelta hdr d).series.lookup k =
      match MetricsDelta.at d k with
      | some e => (a.series.lookup k).map (.mapData (.restore hdr e.data))
      | none => a.series.lookup k := by
  rw [Aggregator.restoreDelta, Table.lookup_updates hd, ← MetricsDelta.at]
  cases MetricsDelta.at d k <;> rfl

theorem Holds.mergeDelta {sent : Multiset F64} (h : a.Holds hdr kind k sent unsent)
    (hd : d.Carries hdr kind k held amount) (hheld : held ≤ sent + amount) :
    (a.mergeDelta hdr d).Holds hdr kind k (sent + amount) (unsent + amount) := by
  have hle : unsent + amount ≤ sent + amount := Multiset.add_le_add_right h.unsent_le
  have hlookup := @lookup_mergeDelta hdr a k d hd.nodup
  have hcarries := hd.carries
  cases hat : MetricsDelta.at d k with
  | some e =>
    rw [hat] at hlookup hcarries
    obtain ⟨hk, hdata⟩ := lookup_getD h fun _ => hd.kind_eq e hat
    refine .change hlookup hk ?_ ?_ hle
    · rw [Series.mapData, hdata, SeriesData.kind_merge, h.data_kind]
    · rw [Series.mapData, hdata]
      exact h.represents.merge (h.data_kind.symm ▸ hcarries) hd.amount_le hheld
  | none =>
    rw [hat] at hlookup hcarries
    have hrep := h.represents.merge_none (h.data_kind.symm ▸ hcarries) hd.amount_le hheld
    cases hl : a.series.lookup k with
    | some s =>
      rw [dataAt_of_lookup hl] at hrep
      have hdata := h.data_kind
      rw [dataAt_of_lookup hl] at hdata
      exact .change (hlookup.trans hl) (h.kind_eq s hl) hdata hrep hle
    | none =>
      rw [dataAt_of_none hl] at hrep
      refine .absent (hlookup.trans hl) hrep hle ?_
      rintro rfl
      have hsent := h.gauge_present rfl hl
      have hamount : amount = 0 := Multiset.le_zero.1 ((show held = 0 from hcarries) ▸ hd.amount_le)
      rw [hsent, hamount, add_zero]

theorem Holds.restoreDelta (h : a.Holds hdr kind k held unsent)
    (hd : d.Carries hdr kind k held' amount) (hle : unsent + amount ≤ held)
    (hpresent : a.series.lookup k = none → amount = 0) :
    (a.restoreDelta hdr d).Holds hdr kind k held (unsent + amount) := by
  have hlookup := @lookup_restoreDelta hdr a k d hd.nodup
  have hcarries := hd.carries
  cases hl : a.series.lookup k with
  | none =>
    obtain rfl := hpresent hl
    rw [add_zero]
    refine h.congr ?_
    rw [hlookup, hl]
    cases MetricsDelta.at d k <;> rfl
  | some s =>
    have hdata : a.dataAt kind k = s.data := dataAt_of_lookup hl
    have hkind := h.data_kind
    have hrep := h.represents
    rw [hdata] at hkind hrep
    cases hat : MetricsDelta.at d k with
    | none =>
      rw [hat] at hlookup hcarries
      exact .change (hlookup.trans hl) (h.kind_eq s hl) hkind
        (hrep.restore_none (hkind.symm ▸ hcarries)) hle
    | some e =>
      rw [hat, hl] at hlookup
      rw [hat] at hcarries
      refine .change hlookup (h.kind_eq s hl) ?_ ?_ hle
      · rw [Series.mapData, SeriesData.kind_restore, hkind]
      · exact hrep.restore (hkind.symm ▸ hcarries) hle

end Aggregator

end Loadr.Core
