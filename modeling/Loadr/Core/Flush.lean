import Loadr.Core.Contents
import Loadr.Lib.Machine

/-!
# Flushing an aggregator

An aggregator whose deltas go to another one.  A delta that was taken is either delivered, and then
merged, or put back; samples are recorded all the while.  Under each key nothing is lost or counted
twice (`flush_conservation`).

The series of a delta are in the order in which the source iterates its map, which may be any.
-/

namespace Loadr.Core

open F64 Option Multiset

/-! ## What is compared -/

def SeriesData.cumulative : SeriesData → SeriesData
  | .counter total _ => .counter total 0
  | .gauge last min max seq => .gauge last min max seq
  | .rate passes total _ _ => .rate passes total 0 0
  | .trend hist _ sum count min max => .trend hist 0 sum count min max

/-- What deltas carry exactly: everything cumulative but the last value of a gauge and the sum of a
trend. -/
def SeriesData.totals : SeriesData → SeriesData
  | .counter total _ => .counter total 0
  | .gauge _ min max _ => .gauge 0 min max 0
  | .rate passes total _ _ => .rate passes total 0 0
  | .trend hist _ _ count min max => .trend hist 0 0 count min max

/-- The second aggregator has the totals of the first; a series without a total may be missing. -/
structure Conserved (source target : Aggregator) : Prop where
  absent : ∀ k, source.series.lookup k = none → target.series.lookup k = none
  totals : ∀ k x, source.series.lookup k = some x → (target.dataAt x.kind k).totals = x.data.totals

def ConservedAt (k : SeriesKey) (source target : Aggregator) : Prop :=
  (source.series.lookup k = none → target.series.lookup k = none) ∧
    ∀ x, source.series.lookup k = some x → (target.dataAt x.kind k).totals = x.data.totals

theorem conserved_iff {source target : Aggregator} :
    Conserved source target ↔ ∀ k, ConservedAt k source target :=
  ⟨fun h k => ⟨h.absent k, h.totals k⟩, fun h => ⟨fun k => (h k).1, fun k => (h k).2⟩⟩

variable {hdr : Hdr} {held unsent unsent' : Multiset F64}

theorem SeriesData.Represents.totals_eq {data data' : SeriesData}
    (h : data.Represents hdr held unsent) (h' : data'.Represents hdr held unsent')
    (hkind : data.kind = data'.kind) : data.totals = data'.totals := by
  cases data <;> cases data' <;> try cases hkind
  · obtain ⟨-, rfl, -⟩ := h
    obtain ⟨-, rfl, -⟩ := h'
    rfl
  · obtain ⟨rfl, rfl⟩ := h
    obtain ⟨rfl, rfl⟩ := h'
    rfl
  · obtain ⟨rfl, rfl, -⟩ := h
    obtain ⟨rfl, rfl, -⟩ := h'
    rfl
  · obtain ⟨rfl, -, rfl, rfl, rfl⟩ := h
    obtain ⟨rfl, -, rfl, rfl, rfl⟩ := h'
    rfl

theorem SeriesData.cumulative_flush (data : SeriesData) :
    data.flush.cumulative = data.cumulative := by
  cases data with
  | counter | rate => simp only [flush]; split_ifs <;> rfl
  | _ => rfl

theorem SeriesData.cumulative_restore (data : SeriesData) (d : SeriesDeltaData) :
    (data.restore hdr d).cumulative = data.cumulative := by
  cases data <;> cases d <;> rfl

/-! ## The machine -/

namespace Flush

structure State where
  source : Aggregator := {}
  target : Aggregator := {}
  /-- The delta that was taken and is neither delivered nor put back. -/
  taken : Option MetricsDelta := none

inductive Action
  | record (s : Sample)
  | take (delta : MetricsDelta)
  | deliver
  | restore

def next (hdr : Hdr) (s : State) : Action → Option State
  | .record x => some { s with source := s.source.record hdr x }
  | .take delta =>
    if s.taken = none ∧ delta.Perm (s.source.takeDelta hdr).1 then
      some { s with source := (s.source.takeDelta hdr).2, taken := some delta }
    else none
  | .deliver => s.taken.map fun delta =>
      { s with target := s.target.mergeDelta hdr delta, taken := none }
  | .restore => s.taken.map fun delta =>
      { s with source := s.source.restoreDelta hdr delta, taken := none }

def machine (hdr : Hdr) : Machine State Action where
  init s := s = {}
  next := next hdr

def Exact (s : State) : Action → Prop
  | .record x => (s.source.dataAt x.kind x.key).kind = .counter → x.value.isFinite = true
  | _ => True

instance (s : State) : (a : Action) → Decidable (Exact s a)
  | .record _ => inferInstanceAs (Decidable (_ → _))
  | .take _ | .deliver | .restore => .isTrue trivial

/-! ## Accounts -/

variable {s t : State} {k : SeriesKey} {kind : MetricKind} {sent : Multiset F64}

/-- What is not with the source any more was sent or is on its way. -/
def Balanced (hdr : Hdr) (kind : MetricKind) (k : SeriesKey) (held sent unsent : Multiset F64) :
    Option MetricsDelta → Prop
  | none => held = sent + unsent
  | some d => ∃ heldThen amount, d.Carries hdr kind k heldThen amount ∧
      heldThen ≤ sent + amount ∧ held = sent + amount + unsent

structure Accounts (hdr : Hdr) (kind : MetricKind) (k : SeriesKey)
    (held sent unsent : Multiset F64) (s : State) : Prop where
  source : s.source.Holds hdr kind k held unsent
  target : s.target.Holds hdr kind k sent sent
  present : s.source.series.lookup k = none → held = 0
  balanced : Balanced hdr kind k held sent unsent s.taken

/-- The series of the source, if there is one, is of the kind. -/
def OfKind (kind : MetricKind) (k : SeriesKey) (s : State) : Prop :=
  ∀ x, s.source.series.lookup k = some x → x.kind = kind

theorem Balanced.cons {taken : Option MetricsDelta} (h : Balanced hdr kind k held sent unsent taken)
    (v : F64) : Balanced hdr kind k (v ::ₘ held) sent (v ::ₘ unsent) taken := by
  cases taken with
  | none =>
    have hheld : held = sent + unsent := h
    exact (congrArg _ hheld).trans (add_cons _ _ _).symm
  | some d =>
    obtain ⟨heldThen, amount, hd, hle, rfl⟩ := h
    exact ⟨heldThen, amount, hd, hle, (add_cons _ _ _).symm⟩

theorem accounts_init (hdr : Hdr) (kind : MetricKind) (k : SeriesKey) :
    Accounts hdr kind k 0 0 0 {} where
  source := Aggregator.holds_new hdr kind k
  target := Aggregator.holds_new hdr kind k
  present _ := rfl
  balanced := (add_zero 0).symm

theorem Accounts.record (h : Accounts hdr kind k held sent unsent s) {x : Sample}
    (hexact : x.key = k → Exact s (.record x))
    (hkind : OfKind kind k { s with source := s.source.record hdr x }) :
    ∃ held' unsent',
      Accounts hdr kind k held' sent unsent' { s with source := s.source.record hdr x } := by
  by_cases hk : x.key = k
  · subst hk
    have hlookup : (s.source.record hdr x).series.lookup x.key = some
        (((s.source.series.lookup x.key).getD (.new x.kind)).mapData
          (.record hdr x.value (s.source.seq + 1))) := by
      rw [Aggregator.record, Table.lookup_upsert, if_pos rfl]
    have hnew : s.source.series.lookup x.key = none → x.kind = kind := by
      intro hnone
      have hkind := hkind _ hlookup
      rwa [hnone] at hkind
    have hfin : kind = .counter → x.value.isFinite = true := by
      intro hcounter
      refine hexact rfl ?_
      rw [← Aggregator.dataAt_congr hnew, h.source.data_kind, hcounter]
    refine ⟨x.value ::ₘ held, x.value ::ₘ unsent, h.source.record hnew hfin, h.target, ?_,
      h.balanced.cons x.value⟩
    intro hnone
    rw [hlookup] at hnone
    cases hnone
  · refine ⟨held, unsent, h.source.record_of_ne hk, h.target, ?_, h.balanced⟩
    rw [Aggregator.record, Table.lookup_upsert, if_neg (Ne.symm hk)]
    exact h.present

variable {delta : MetricsDelta} {a : Action}

section

variable (h : Accounts hdr kind k held sent unsent s)
include h

theorem Accounts.take (htaken : s.taken = none)
    (hp : delta.Perm (s.source.takeDelta hdr).1) :
    Accounts hdr kind k held sent 0
      { s with source := (s.source.takeDelta hdr).2, taken := some delta } where
  source := h.source.takeDelta
  target := h.target
  present hnone := by
    rw [Aggregator.lookup_takeDelta, map_eq_none_iff] at hnone
    exact h.present hnone
  balanced := by
    have hheld := h.balanced
    rw [htaken] at hheld
    have hheld : held = sent + unsent := hheld
    exact ⟨held, unsent, h.source.carries.perm hp, hheld.le, hheld.trans (add_zero _).symm⟩

theorem Accounts.deliver
    (htaken : s.taken = some delta) :
    ∃ sent', Accounts hdr kind k held sent' unsent
      { s with target := s.target.mergeDelta hdr delta, taken := none } := by
  have hbalanced := h.balanced
  rw [htaken] at hbalanced
  obtain ⟨heldThen, amount, hd, hle, hheld⟩ := hbalanced
  exact ⟨sent + amount, h.source, h.target.mergeDelta hd hle, h.present, hheld⟩

theorem Accounts.restore
    (htaken : s.taken = some delta) :
    ∃ unsent', Accounts hdr kind k held sent unsent'
      { s with source := s.source.restoreDelta hdr delta, taken := none } := by
  have hbalanced := h.balanced
  rw [htaken] at hbalanced
  obtain ⟨heldThen, amount, hd, hle, hheld⟩ := hbalanced
  have hback : held = sent + (unsent + amount) := by rw [hheld, add_assoc, add_comm amount]
  have hbackle : unsent + amount ≤ held := hback ▸ le_add_left _ _
  have hnone : s.source.series.lookup k = none → amount = 0 := by
    intro hnone
    rw [h.present hnone] at hbackle
    exact le_zero.1 ((le_add_left _ _).trans hbackle)
  refine ⟨unsent + amount, h.source.restoreDelta hd hbackle hnone, h.target, ?_, hback⟩
  intro hlookup
  rw [Aggregator.lookup_restoreDelta hd.nodup] at hlookup
  cases hat : MetricsDelta.at delta k with
  | none =>
    rw [hat] at hlookup
    exact h.present hlookup
  | some e =>
    rw [hat] at hlookup
    exact h.present (map_eq_none_iff.1 hlookup)

theorem Accounts.step (hnext : next hdr s a = some t)
    (hexact : ∀ x, a = .record x → x.key = k → Exact s a) (hkind : OfKind kind k t) :
    ∃ held' sent' unsent', Accounts hdr kind k held' sent' unsent' t := by
  cases a with
  | record x =>
    cases hnext
    obtain ⟨held', unsent', h⟩ := h.record (hexact x rfl) hkind
    exact ⟨held', sent, unsent', h⟩
  | take delta =>
    simp only [next, ite_none_right_eq_some] at hnext
    obtain ⟨⟨htaken, hp⟩, hnext⟩ := hnext
    cases hnext
    exact ⟨held, sent, 0, h.take htaken hp⟩
  | deliver =>
    obtain ⟨delta, htaken, rfl⟩ := map_eq_some_iff.1 hnext
    obtain ⟨sent', h⟩ := h.deliver htaken
    exact ⟨held, sent', unsent, h⟩
  | restore =>
    obtain ⟨delta, htaken, rfl⟩ := map_eq_some_iff.1 hnext
    obtain ⟨unsent', h⟩ := h.restore htaken
    exact ⟨held, sent, unsent', h⟩

end

theorem lookup_step (hnext : next hdr s a = some t) (hrecord : ∀ x, a ≠ .record x) :
    (t.source.series.lookup k).map (fun x => (x.kind, x.data.cumulative)) =
      (s.source.series.lookup k).map fun x => (x.kind, x.data.cumulative) := by
  cases a with
  | record x => cases hrecord x rfl
  | take delta =>
    simp only [next, ite_none_right_eq_some] at hnext
    obtain ⟨-, hnext⟩ := hnext
    cases hnext
    simp [Aggregator.lookup_takeDelta, Series.mapData, SeriesData.cumulative_flush,
      Function.comp_def]
  | deliver =>
    obtain ⟨delta, htaken, rfl⟩ := map_eq_some_iff.1 hnext
    rfl
  | restore =>
    obtain ⟨delta, htaken, rfl⟩ := map_eq_some_iff.1 hnext
    refine Table.map_lookup_updates (fun d x => ?_) s.source.series k
    simp [Series.mapData, SeriesData.cumulative_restore]

theorem ofKind_of_step (hnext : next hdr s a = some t) (h : OfKind kind k t) : OfKind kind k s := by
  intro x hx
  by_cases hrecord : ∃ y, a = .record y
  · obtain ⟨y, rfl⟩ := hrecord
    cases hnext
    by_cases hk : y.key = k
    · subst hk
      have hlookup : (s.source.record hdr y).series.lookup y.key =
          some (x.mapData (.record hdr y.value (s.source.seq + 1))) := by
        rw [Aggregator.record, Table.lookup_upsert, if_pos rfl, hx, getD_some]
      have hkind := h _ hlookup
      exact hkind
    · refine h x ?_
      rwa [Aggregator.record, Table.lookup_upsert, if_neg (Ne.symm hk)]
  · have hmap := @lookup_step hdr s t k a hnext fun y hy => hrecord ⟨y, hy⟩
    rw [hx, map_some] at hmap
    obtain ⟨y, hy, heq⟩ := map_eq_some_iff.1 hmap
    exact (congrArg Prod.fst heq).symm.trans (h y hy)

theorem accounts (h : ((machine hdr).guarded Exact).Reachable s) (hkind : OfKind kind k s) :
    ∃ held sent unsent, Accounts hdr kind k held sent unsent s := by
  induction h with
  | init hinit =>
    obtain rfl := hinit
    exact ⟨0, 0, 0, accounts_init hdr kind k⟩
  | step _ hs ih =>
    obtain ⟨hexact, hnext⟩ := Machine.guarded_next.1 hs
    obtain ⟨held, sent, unsent, h⟩ := ih (ofKind_of_step hnext hkind)
    exact h.step hnext (fun _ _ _ => hexact) hkind

/-! ## Conservation -/

/-- Neither the next delta nor putting one back subtracts more than there is. -/
def NoUnderflow (s : State) : Prop :=
  ∀ k kind p n flushedP flushedN,
    s.source.series.lookup k = some ⟨kind, .rate p n flushedP flushedN⟩ →
      flushedP ≤ p ∧ flushedN ≤ n ∧
      ∀ d, s.taken = some d → ∀ e ∈ d, e.key = k → ∀ p' n', e.data = .rate p' n' →
        p' ≤ flushedP ∧ n' ≤ flushedN

theorem conservedAt (h : ∀ kind, OfKind kind k s → ∃ held sent unsent,
    Accounts hdr kind k held sent unsent s) (htaken : s.taken = none)
    (hp : delta.Perm (s.source.takeDelta hdr).1) :
    ConservedAt k s.source (s.target.mergeDelta hdr delta) := by
  have hnodup : (delta.map SeriesDelta.key).Nodup :=
    (hp.map _).nodup_iff.2 Aggregator.nodup_takeDelta
  constructor
  · intro hnone
    have hat : MetricsDelta.at delta k = none := by
      rw [MetricsDelta.at, Table.find?_perm Aggregator.nodup_takeDelta hp, ← MetricsDelta.at,
        Aggregator.at_takeDelta, hnone, bind_none]
    rw [Aggregator.lookup_mergeDelta hnodup, hat]
    have hkind (kind : MetricKind) : OfKind kind k s := fun x hx => by simp [hnone] at hx
    obtain ⟨_, _, _, hcounter⟩ := h .counter (hkind .counter)
    obtain ⟨_, _, _, hgauge⟩ := h .gauge (hkind .gauge)
    refine eq_none_iff_forall_not_mem.2 fun x hx => ?_
    have := (hcounter.target.kind_eq x hx).symm.trans (hgauge.target.kind_eq x hx)
    cases this
  · intro x hx
    have hkind : OfKind x.kind k s := fun y hy => by
      rw [hx] at hy
      exact some.inj hy ▸ rfl
    obtain ⟨held, sent, unsent, h⟩ := h x.kind hkind
    have hheld := h.balanced
    rw [htaken] at hheld
    have hheld : held = sent + unsent := hheld
    have htarget := h.target.mergeDelta (h.source.carries.perm hp) hheld.le
    rw [← hheld] at htarget
    have hdata : s.source.dataAt x.kind k = x.data := Aggregator.dataAt_of_lookup hx
    rw [← hdata]
    exact htarget.represents.totals_eq h.source.represents
      (htarget.data_kind.trans h.source.data_kind.symm)

theorem noUnderflow (h : ((machine hdr).guarded Exact).Reachable s) : NoUnderflow s := by
  intro k kind p n flushedP flushedN hx
  have hkind : OfKind kind k s := fun y hy => by
    rw [hx] at hy
    exact some.inj hy ▸ rfl
  obtain ⟨held, sent, unsent, h⟩ := accounts h hkind
  have hdata : s.source.dataAt kind k = .rate p n flushedP flushedN :=
    Aggregator.dataAt_of_lookup hx
  have hrep := h.source.represents
  have hrate := h.source.data_kind
  rw [hdata] at hrep hrate
  obtain ⟨rfl, rfl, hpasses, hcard⟩ := hrep
  obtain rfl : MetricKind.rate = kind := hrate
  refine ⟨by omega, by omega, ?_⟩
  rintro d hd e he hkey p' n' hedata
  have hbalanced := h.balanced
  rw [hd] at hbalanced
  obtain ⟨heldThen, amount, hcarries, -, rfl⟩ := hbalanced
  have hamount := hcarries.carries
  rw [(MetricsDelta.at_eq_some_iff hcarries.nodup).2 ⟨he, hkey⟩, map_some, hedata] at hamount
  obtain ⟨rfl, rfl⟩ := hamount
  simp only [SeriesData.passes_add, card_add] at hpasses hcard
  exact ⟨by omega, by omega⟩

/-- Nothing is lost or counted twice between an aggregator and the one its deltas go to, whatever
part of them is put back; taking and putting back deltas leaves the cumulative values alone and
never underflows. -/
theorem flush_conservation (h : ((machine hdr).guarded Exact).Reachable s) :
    (s.taken = none → ∀ delta : MetricsDelta, delta.Perm (s.source.takeDelta hdr).1 →
      Conserved s.source (s.target.mergeDelta hdr delta)) ∧
    (∀ a t, next hdr s a = some t → (∀ x, a ≠ .record x) → ∀ k,
      (t.source.series.lookup k).map (fun x => (x.kind, x.data.cumulative)) =
        (s.source.series.lookup k).map fun x => (x.kind, x.data.cumulative)) ∧
    NoUnderflow s := by
  refine ⟨fun htaken delta hp => conserved_iff.2 fun k =>
    conservedAt (fun _ => accounts h) htaken hp, ?_, noUnderflow h⟩
  exact fun a t hnext hrecord k => lookup_step hnext hrecord

def retried : List Action :=
  [.record ⟨"checks", .rate, 0, []⟩,
    .take [⟨⟨"checks", []⟩, .rate, .rate 0 1⟩],
    .record ⟨"checks", .rate, .fin 1, []⟩,
    .restore,
    .take [⟨⟨"checks", []⟩, .rate, .rate 1 2⟩],
    .deliver]

theorem conserved_after_retry : ∃ s, ((machine plainHdr).guarded Exact).Reachable s ∧
    (s.source.series.lookup ⟨"checks", []⟩ = some ⟨.rate, .rate 1 2 1 2⟩ ∧ s.taken = none) ∧
    Conserved s.source (s.target.mergeDelta plainHdr (s.source.takeDelta plainHdr).1) := by
  obtain ⟨s, hs, hcounted⟩ := @Machine.exists_reachable_of_run _ _
    ((machine plainHdr).guarded Exact) {} rfl retried
    (fun s => s.source.series.lookup ⟨"checks", []⟩ = some ⟨.rate, .rate 1 2 1 2⟩ ∧
      s.taken = none) _ (by decide)
  exact ⟨s, hs, hcounted, (flush_conservation hs).1 hcounted.2 _ (List.Perm.refl _)⟩

end Flush

end Loadr.Core
