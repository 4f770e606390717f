import Loadr.Core.Metrics
import Loadr.Lib.Table
import Mathlib.Logic.Equiv.Multiset

/-!
# The aggregator

Samples are summed up in series, one for each metric and tag set.  What a series has not sent on yet
is taken as a delta, which another aggregator merges, or which is put back.

A histogram is the multiset of the buckets of its values.  The buckets, the mean and the encoding
are those of the histogram library, of which only is assumed that decoding gives back what was
encoded.  The window of the live snapshots is left out.
-/

namespace Loadr.Core

/-! ## Histograms -/

abbrev Histogram := Multiset ℕ

/-- What is used of the histogram library. -/
structure Hdr where
  bucket : ℕ → ℕ
  mean : Histogram → F64
  serialize : Histogram → String
  deserialize : String → Option Histogram
  deserialize_serialize : ∀ h, deserialize (serialize h) = some h

/-- Histograms with a bucket for each value, written as that many characters as their number is. -/
def plainHdr : Hdr where
  bucket v := v
  mean _ := 0
  serialize h := String.ofList (List.replicate (Encodable.encode h) 'a')
  deserialize text := Encodable.decode text.length
  deserialize_serialize h := by
    rw [String.length_ofList, List.length_replicate, Encodable.encodek]

variable (hdr : Hdr)

def trendScale : F64 := .fin 1000

def Hdr.scaled (value : F64) : ℕ := hdr.bucket (max (value * trendScale).round 0).toU64

/-! ## Series -/

inductive SeriesData
  | counter (total flushed : F64)
  | gauge (last min max : F64) (seq : ℕ)
  | rate (passes total flushedPasses flushedTotal : ℕ)
  | trend (hist deltaHist : Histogram) (sum : F64) (count : ℕ) (min max : F64)
deriving DecidableEq

structure Series where
  kind : MetricKind
  data : SeriesData
deriving DecidableEq

def SeriesData.new : MetricKind → SeriesData
  | .counter => .counter 0 0
  | .gauge => .gauge 0 .posInf .negInf 0
  | .rate => .rate 0 0 0 0
  | .trend => .trend 0 0 0 0 .posInf .negInf

def Series.new (kind : MetricKind) : Series := ⟨kind, .new kind⟩

def SeriesData.record (value : F64) (seq : ℕ) : SeriesData → SeriesData
  | .counter total flushed => .counter (total + value) flushed
  | .gauge _ min' max' _ => .gauge value (min min' value) (max max' value) seq
  | .rate passes total flushedPasses flushedTotal =>
    .rate (if value.eq 0 then passes else passes + 1) (total + 1) flushedPasses flushedTotal
  | .trend hist deltaHist sum count min' max' =>
    .trend (hdr.scaled value ::ₘ hist) (hdr.scaled value ::ₘ deltaHist) (sum + value) (count + 1)
      (min min' value) (max max' value)

/-! ## Deltas -/

inductive SeriesDeltaData
  | counter (delta : F64)
  | gauge (last min max : F64)
  | rate (passes total : ℕ)
  /-- The sum and the extremes are those of the whole series, the count is that of the delta. -/
  | trend (hdrB64 : String) (sum : F64) (count : ℕ) (min max : F64)
deriving DecidableEq

structure SeriesDelta where
  key : SeriesKey
  kind : MetricKind
  data : SeriesDeltaData
deriving DecidableEq

abbrev MetricsDelta := List SeriesDelta

/-- What a series sends on, unless there is nothing to send. -/
def SeriesData.delta : SeriesData → Option SeriesDeltaData
  | .counter total flushed =>
    if (total - flushed).eq 0 then none else some (.counter (total - flushed))
  | .gauge last min max _ => some (.gauge last min max)
  | .rate passes total flushedPasses flushedTotal =>
    if total - flushedTotal = 0 then none
    else some (.rate (passes - flushedPasses) (total - flushedTotal))
  | .trend _ deltaHist sum _ min max =>
    if deltaHist = 0 then none
    else some (.trend (hdr.serialize deltaHist) sum deltaHist.card min max)

/-- The series once that is sent on. -/
def SeriesData.flush : SeriesData → SeriesData
  | .counter total flushed =>
    if (total - flushed).eq 0 then .counter total flushed else .counter total total
  | .gauge last min max seq => .gauge last min max seq
  | .rate passes total flushedPasses flushedTotal =>
    if total - flushedTotal = 0 then .rate passes total flushedPasses flushedTotal
    else .rate passes total passes total
  | .trend hist _ sum count min max => .trend hist 0 sum count min max

def SeriesData.restore (delta : SeriesDeltaData) (data : SeriesData) : SeriesData :=
  match data, delta with
  | .counter total flushed, .counter delta => .counter total (flushed - delta)
  | .rate passes total flushedPasses flushedTotal, .rate passes' total' =>
    .rate passes total (flushedPasses - passes') (flushedTotal - total')
  | .trend hist deltaHist sum count min max, .trend hdrB64 _ _ _ _ =>
    .trend hist (deltaHist + (hdr.deserialize hdrB64).getD 0) sum count min max
  | data, _ => data

def SeriesData.merge (delta : SeriesDeltaData) (seq : ℕ) (data : SeriesData) : SeriesData :=
  match data, delta with
  | .counter total flushed, .counter delta => .counter (total + delta) flushed
  | .gauge _ min₁ max₁ _, .gauge last min₂ max₂ => .gauge last (min min₁ min₂) (max max₁ max₂) seq
  | .rate passes total flushedPasses flushedTotal, .rate passes' total' =>
    .rate (passes + passes') (total + total') flushedPasses flushedTotal
  | .trend hist deltaHist sum count min₁ max₁, .trend hdrB64 _ _ min₂ max₂ =>
    match hdr.deserialize hdrB64 with
    | some h =>
      -- the sum of what is added is rebuilt from the mean of its buckets
      .trend (hist + h) (deltaHist + h) (sum + hdr.mean h / trendScale * .fin h.card)
        (count + h.card) (min min₁ min₂) (max max₁ max₂)
    | none => data
  | data, _ => data

def Series.mapData (f : SeriesData → SeriesData) (s : Series) : Series :=
  { s with data := f s.data }

/-! ## Aggregators -/

structure Aggregator where
  series : Table SeriesKey Series := ∅
  seq : ℕ := 0

namespace Aggregator

/-- The same aggregator, with its map iterated in another order. -/
def reordered (a b : Aggregator) : Bool :=
  decide (a.series.entries.Perm b.series.entries) && a.seq == b.seq

def record (s : Sample) (a : Aggregator) : Aggregator where
  series := a.series.upsert s.key (.new s.kind) (.mapData (.record hdr s.value (a.seq + 1)))
  seq := a.seq + 1

def seriesDelta (p : Σ _ : SeriesKey, Series) : Option SeriesDelta :=
  (p.2.data.delta hdr).map fun data => ⟨p.1, p.2.kind, data⟩

def takeDelta (a : Aggregator) : MetricsDelta × Aggregator :=
  (a.series.entries.filterMap (seriesDelta hdr),
    { a with series := a.series.mapValues fun _ => .mapData .flush })

/-- Undo `takeDelta` for a delta that could not be sent on. -/
def restoreDelta (delta : MetricsDelta) (a : Aggregator) : Aggregator where
  series := Table.updates SeriesDelta.key (fun d => .mapData (.restore hdr d.data)) a.series delta
  seq := a.seq

def mergeDelta (delta : MetricsDelta) (a : Aggregator) : Aggregator where
  series := Table.upserts SeriesDelta.key (fun d => .new d.kind)
    (fun d => .mapData (.merge hdr d.data (a.seq + 1))) a.series delta
  seq := a.seq + 1

end Aggregator

/-! ## Shards -/

structure MetricShards where
  shards : List Aggregator
  nonempty : shards ≠ []

namespace MetricShards

def new (n : ℕ) : MetricShards where
  shards := List.replicate (max n 1) {}
  nonempty := by
    rw [ne_eq, List.replicate_eq_nil_iff]
    omega

def len (m : MetricShards) : ℕ := m.shards.length

def record (idx : ℕ) (s : Sample) (m : MetricShards) : MetricShards where
  shards := m.shards.modify (idx % m.len) (.record hdr s)
  nonempty := by
    rw [ne_eq, ← List.length_eq_zero_iff, List.length_modify]
    exact mt List.length_eq_zero_iff.1 m.nonempty

def forVu (m : MetricShards) (vuId : ℕ) : ℕ := vuId % m.len

/-- Take the delta of each shard in turn and merge it. -/
def drain : List Aggregator → Aggregator → List Aggregator × Aggregator
  | [], target => ([], target)
  | shard :: rest, target =>
    let (delta, shard) := shard.takeDelta hdr
    let (rest, target) := drain rest (target.mergeDelta hdr delta)
    (shard :: rest, target)

theorem length_drain (shards : List Aggregator) (target : Aggregator) :
    (drain hdr shards target).1.length = shards.length := by
  induction shards generalizing target with
  | nil => rfl
  | cons shard rest ih => rw [drain, List.length_cons, List.length_cons, ih]

def drainInto (m : MetricShards) (target : Aggregator) : MetricShards × Aggregator :=
  (⟨(drain hdr m.shards target).1, by
      rw [ne_eq, ← List.length_eq_zero_iff, length_drain]
      exact mt List.length_eq_zero_iff.1 m.nonempty⟩,
    (drain hdr m.shards target).2)

end MetricShards

end Loadr.Core
