import Loadr.Core.Flush
import Loadr.Lib.Ledger
import Mathlib.Data.Fintype.Sum

/-!
# Federation

Processes in a tree, each with an aggregator whose deltas its parent merges.  In shard mode a
process records into shards, which are drained into its aggregator.

Under each key the processes follow a ledger, with a node for the aggregator of a process and one
for all of its shards (`Refines`).
-/

namespace Loadr.Core

open F64 Function List Option Multiset

variable (hdr : Hdr)

/-! ## Processes -/

/-- A process; without shards, samples go into the aggregator through a channel. -/
structure Process where
  shards : Option MetricShards := none
  agg : Aggregator := {}

namespace Process

def emit (vuId : ℕ) (s : Sample) (p : Process) : Process :=
  match p.shards with
  | some m => { p with shards := some (m.record hdr (m.forVu vuId) s) }
  | none => { p with agg := p.agg.record hdr s }

def drain (p : Process) : Process :=
  match p.shards with
  | some m => ⟨some (m.drainInto hdr p.agg).1, (m.drainInto hdr p.agg).2⟩
  | none => p

def shardList (p : Process) : List Aggregator := (p.shards.map (·.shards)).getD []

end Process

def Process.reordered (p q : Process) : Bool :=
  p.agg.reordered q.agg && p.shardList.isEqv q.shardList Aggregator.reordered &&
    p.shards.isSome == q.shards.isSome

structure Federation (ι : Type) where
  parent : ι → Option ι
  root : ι
  parent_eq_none : ∀ i, parent i = none ↔ i = root
  rank : ι → ℕ
  rank_lt : ∀ i p, parent i = some p → rank i < rank p

namespace Federation

variable {ι : Type} [DecidableEq ι]

structure State (ι : Type) where
  nodes : ι → Process
  direct : Aggregator := {}

inductive Action (ι : Type)
  | emit (i : ι) (vuId : ℕ) (s : Sample)
  | drain (i : ι)
  | flush (i : ι)
  | reorder (i : ι) (p : Process)

def flushInto (i p : ι) (nodes : ι → Process) : ι → Process :=
  let (delta, agg) := (nodes i).agg.takeDelta hdr
  update (update nodes i { nodes i with agg }) p
    { nodes p with agg := (nodes p).agg.mergeDelta hdr delta }

def next (F : Federation ι) (s : State ι) : Action ι → Option (State ι)
  | .emit i vuId x => some
      { nodes := update s.nodes i ((s.nodes i).emit hdr vuId x), direct := s.direct.record hdr x }
  | .drain i => some { s with nodes := update s.nodes i ((s.nodes i).drain hdr) }
  | .flush i => (F.parent i).map fun p => { s with nodes := flushInto hdr i p s.nodes }
  | .reorder i p =>
    if (s.nodes i).reordered p then some { s with nodes := update s.nodes i p } else none

/-- Every process starts in shard mode or without shards. -/
def machine (F : Federation ι) : Machine (State ι) (Action ι) where
  init s := s.direct = {} ∧ ∀ i, s.nodes i = {} ∨ ∃ n, s.nodes i = { shards := some (.new n) }
  next := F.next hdr

/-- Counters are exact numbers, and the samples of a key have one kind. -/
def Regular (kindOf : SeriesKey → MetricKind) (_ : State ι) : Action ι → Prop
  | .emit _ _ x => x.kind = kindOf x.key ∧ (x.kind = .counter → x.value.isFinite = true)
  | _ => True

instance (kindOf : SeriesKey → MetricKind) (s : State ι) :
    (a : Action ι) → Decidable (Regular kindOf s a)
  | .emit _ _ _ => inferInstanceAs (Decidable (_ ∧ _))
  | .drain _ | .flush _ | .reorder _ _ => .isTrue trivial

/-! ## Shards against the ledger -/

/-- Shards with `pending` unsent, whose target was given `total`. -/
inductive ShardsHold (hdr : Hdr) (kind : MetricKind) (k : SeriesKey) (total : Multiset F64) :
    Multiset F64 → List Aggregator → Prop
  | nil : ShardsHold hdr kind k total 0 []
  | cons {a : Aggregator} {rest : List Aggregator} {held unsent pending : Multiset F64} :
      a.Holds hdr kind k held unsent → held ≤ total + unsent →
      ShardsHold hdr kind k total pending rest →
      ShardsHold hdr kind k total (unsent + pending) (a :: rest)

variable {hdr} {kind : MetricKind} {k : SeriesKey} {total total' pending : Multiset F64}
  {shards : List Aggregator} {x : Sample} {p : Process} {i : ι} {order : List ι}

namespace ShardsHold

theorem eq_zero (h : ShardsHold hdr kind k total pending []) : pending = 0 := by
  cases h
  rfl

theorem mono (h : ShardsHold hdr kind k total pending shards) (hle : total ≤ total') :
    ShardsHold hdr kind k total' pending shards := by
  induction h with
  | nil => exact .nil
  | cons ha hheld _ ih => exact .cons ha (hheld.trans (add_le_add_left hle _)) ih

theorem replicate (n : ℕ) : ShardsHold hdr kind k total 0 (List.replicate n {}) := by
  induction n with
  | zero => exact .nil
  | succ n ih =>
    have h := ShardsHold.cons (Aggregator.holds_new hdr kind k) (zero_le (total + 0)) ih
    exact h

section

variable (h : ShardsHold hdr kind k total pending shards)
include h

theorem record (hkey : x.key = k)
    (hkind : x.kind = kind) (hfin : kind = .counter → x.value.isFinite = true) {i : ℕ}
    (hi : i < shards.length) :
    ShardsHold hdr kind k total (x.value ::ₘ pending) (shards.modify i (.record hdr x)) := by
  subst hkey
  induction h generalizing i with
  | nil => cases hi
  | @cons a rest held unsent pending ha hheld hrest ih =>
    cases i with
    | zero =>
      have hle : x.value ::ₘ held ≤ total + x.value ::ₘ unsent := by
        rw [add_cons]
        exact cons_le_cons _ hheld
      rw [← cons_add]
      exact .cons (ha.record (fun _ => hkind) hfin) hle hrest
    | succ i =>
      rw [← add_cons]
      exact .cons ha hheld (ih (Nat.lt_of_succ_lt_succ hi))

theorem record_of_ne (hkey : x.key ≠ k) (i : ℕ) :
    ShardsHold hdr kind k total pending (shards.modify i (.record hdr x)) := by
  induction h generalizing i with
  | nil => cases i <;> exact .nil
  | cons ha hheld hrest ih =>
    cases i with
    | zero => exact .cons (ha.record_of_ne hkey) hheld hrest
    | succ i => exact .cons ha hheld (ih i)

theorem drain {target : Aggregator} {unsent : Multiset F64}
    (htarget : target.Holds hdr kind k total unsent) :
    (MetricShards.drain hdr shards target).2.Holds hdr kind k (total + pending)
        (unsent + pending) ∧
      ShardsHold hdr kind k (total + pending) 0 (MetricShards.drain hdr shards target).1 := by
  induction shards generalizing target total unsent pending with
  | nil =>
    cases h
    simpa [MetricShards.drain] using ⟨htarget, ShardsHold.nil⟩
  | cons a rest ih =>
    cases h with
    | @cons _ _ held amount pending ha hheld hrest =>
      have hmerged := htarget.mergeDelta ha.carries hheld
      obtain ⟨hagg, hshards⟩ := ih (hrest.mono (le_add_right total amount)) hmerged
      rw [add_assoc, add_assoc] at hagg
      rw [add_assoc] at hshards
      have hle : held ≤ total + (amount + pending) + 0 := by
        rw [add_zero, ← add_assoc]
        exact hheld.trans (le_add_right _ _)
      have hfirst := ShardsHold.cons ha.takeDelta hle hshards
      exact ⟨hagg, hfirst⟩

theorem reordered {shards' : List Aggregator}
    (heqv : shards.isEqv shards' Aggregator.reordered = true) :
    ShardsHold hdr kind k total pending shards' := by
  induction h generalizing shards' with
  | nil =>
    cases shards' with
    | nil => exact .nil
    | cons => cases heqv
  | cons ha hheld _ ih =>
    cases shards' with
    | nil => cases heqv
    | cons b rest =>
      obtain ⟨hb, hrest⟩ := Bool.and_eq_true_iff.1 heqv
      exact .cons (ha.reordered hb) hheld (ih hrest)

end

end ShardsHold

/-! ## The ledger of a key -/

abbrev Node (ι : Type) := ι ⊕ ι

@[simp]
def nodeParent (F : Federation ι) : Node ι → Option (Node ι)
  | .inl i => (F.parent i).map .inl
  | .inr i => some (.inl i)

structure Refines (hdr : Hdr) (kind : MetricKind) (k : SeriesKey) (L : Ledger (Node ι) F64)
    (nodes : ι → Process) : Prop where
  agg : ∀ i, (nodes i).agg.Holds hdr kind k (L.held (.inl i)) (L.unsent (.inl i))
  shards : ∀ i, ShardsHold hdr kind k (L.held (.inl i)) (L.unsent (.inr i)) (nodes i).shardList

variable {F : Federation ι} {L : Ledger (Node ι) F64} {nodes : ι → Process}

omit [DecidableEq ι] in
theorem nodeParent_ne_self (F : Federation ι) (n : Node ι) : F.nodeParent n ≠ some n := by
  cases n with
  | inr i => simp
  | inl i =>
    intro h
    obtain ⟨p, hp, heq⟩ := map_eq_some_iff.1 h
    obtain rfl := Sum.inl.inj heq
    exact lt_irrefl _ (F.rank_lt p p hp)

theorem Refines.update (h : Refines hdr kind k L nodes) {L' : Ledger (Node ι) F64} {i : ι}
    {p : Process} (hagg : p.agg.Holds hdr kind k (L'.held (.inl i)) (L'.unsent (.inl i)))
    (hshards : ShardsHold hdr kind k (L'.held (.inl i)) (L'.unsent (.inr i)) p.shardList)
    (hother : ∀ j, j ≠ i → L'.held (.inl j) = L.held (.inl j) ∧
      L'.unsent (.inl j) = L.unsent (.inl j) ∧ L'.unsent (.inr j) = L.unsent (.inr j)) :
    Refines hdr kind k L' (update nodes i p) where
  agg j := by
    by_cases hj : j = i
    · subst hj
      rwa [update_self]
    · obtain ⟨hheld, hunsent, -⟩ := hother j hj
      rw [update_of_ne hj, hheld, hunsent]
      exact h.agg j
  shards j := by
    by_cases hj : j = i
    · subst hj
      rwa [update_self]
    · obtain ⟨hheld, -, hpending⟩ := hother j hj
      rw [update_of_ne hj, hheld, hpending]
      exact h.shards j

theorem shardList_of_some {m : MetricShards} (h : p.shards = some m) : p.shardList = m.shards := by
  rw [Process.shardList, h]
  rfl

theorem shardList_of_none (h : p.shards = none) : p.shardList = [] := by
  rw [Process.shardList, h]
  rfl

section

variable (h : Refines hdr kind k L nodes)
include h

theorem Refines.emit (hkey : x.key = k) (hkind : x.kind = kind)
    (hfin : kind = .counter → x.value.isFinite = true) (i : ι) (vuId : ℕ) :
    ∃ n, Refines hdr kind k (L.deposit n x.value)
      (Function.update nodes i ((nodes i).emit hdr vuId x)) := by
  have hshards := h.shards i
  cases hm : (nodes i).shards with
  | none =>
    refine ⟨.inl i, h.update ?_ ?_ fun j hj => by simp [Ledger.deposit, hj]⟩
    · subst hkey
      simpa [Process.emit, hm, Ledger.deposit] using (h.agg i).record (fun _ => hkind) hfin
    · rw [shardList_of_none hm] at hshards
      simpa [Process.emit, hm, Ledger.deposit, Process.shardList] using
        hshards.mono (le_cons_self _ x.value)
  | some m =>
    have hlen : 0 < m.len := length_pos_iff.2 m.nonempty
    have hidx : m.forVu vuId % m.len < m.shards.length := Nat.mod_lt _ hlen
    rw [shardList_of_some hm] at hshards
    refine ⟨.inr i, h.update ?_ ?_ fun j hj => by simp [Ledger.deposit, hj]⟩
    · simpa [Process.emit, hm, Ledger.deposit] using h.agg i
    · simpa [Process.emit, hm, Ledger.deposit, Process.shardList, MetricShards.record] using
        hshards.record hkey hkind hfin hidx

theorem Refines.emit_of_ne (hkey : x.key ≠ k) (i : ι) (vuId : ℕ) :
    Refines hdr kind k L (Function.update nodes i ((nodes i).emit hdr vuId x)) := by
  have hshards := h.shards i
  refine h.update ?_ ?_ fun j _ => ⟨rfl, rfl, rfl⟩
  · cases hm : (nodes i).shards with
    | none => simpa [Process.emit, hm] using (h.agg i).record_of_ne hkey
    | some m => simpa [Process.emit, hm] using h.agg i
  · cases hm : (nodes i).shards with
    | none => simpa [Process.emit, hm, Process.shardList] using hshards
    | some m =>
      rw [shardList_of_some hm] at hshards
      simpa [Process.emit, hm, Process.shardList, MetricShards.record] using
        hshards.record_of_ne hkey _

theorem Refines.drain (i : ι) :
    Refines hdr kind k (L.forward F.nodeParent (.inr i))
      (Function.update nodes i ((nodes i).drain hdr)) := by
  have hshards := h.shards i
  cases hm : (nodes i).shards with
  | none =>
    rw [shardList_of_none hm] at hshards
    have hzero := hshards.eq_zero
    refine h.update ?_ ?_ fun j hj => by simp [Ledger.forward, hj]
    · simpa [Ledger.forward, Process.drain, hm, hzero] using h.agg i
    · simpa [Ledger.forward, Process.drain, hm, Process.shardList, hzero] using hshards
  | some m =>
    rw [shardList_of_some hm] at hshards
    obtain ⟨hagg, hdrained⟩ := hshards.drain (h.agg i)
    refine h.update ?_ ?_ fun j hj => by simp [Ledger.forward, hj]
    · simpa [Ledger.forward, Process.drain, hm, MetricShards.drainInto] using hagg
    · simpa [Ledger.forward, Process.drain, hm, Process.shardList, MetricShards.drainInto] using
        hdrained

theorem Refines.flush {p : ι} (hp : F.parent i = some p)
    (hsent : L.held (.inl i) ≤ L.held (.inl p) + L.unsent (.inl i)) :
    Refines hdr kind k (L.forward F.nodeParent (.inl i)) (flushInto hdr i p nodes) := by
  have hpi : p ≠ i := by
    rintro rfl
    exact lt_irrefl _ (F.rank_lt p p hp)
  -- The child has sent on its delta; the parent does not have it yet.
  let taken : Ledger (Node ι) F64 := { L with unsent := Function.update L.unsent (.inl i) 0 }
  have htaken : Refines hdr kind k taken
      (Function.update nodes i { nodes i with agg := ((nodes i).agg.takeDelta hdr).2 }) := by
    refine h.update ?_ ?_ fun j hj => by simp [taken, hj]
    · simpa [taken] using (h.agg i).takeDelta
    · simpa [taken, Process.shardList] using h.shards i
  have hmerged := (h.agg p).mergeDelta (h.agg i).carries hsent
  refine htaken.update ?_ ?_ fun j hj => ?_
  · simpa [Ledger.forward, hp, hpi, Aggregator.takeDelta] using hmerged
  · have hshards := (h.shards p).mono (le_add_right _ (L.unsent (.inl i)))
    simpa [Ledger.forward, hp, Process.shardList] using hshards
  · by_cases hji : j = i
    · subst hji
      simp [Ledger.forward, hp, taken, hj]
    · simp [Ledger.forward, hp, taken, hj, hji]

theorem Refines.reorder (hp : (nodes i).reordered p = true) :
    Refines hdr kind k L (Function.update nodes i p) := by
  obtain ⟨hp, -⟩ := Bool.and_eq_true_iff.1 hp
  obtain ⟨hagg, hshards⟩ := Bool.and_eq_true_iff.1 hp
  exact h.update ((h.agg i).reordered hagg) ((h.shards i).reordered hshards)
    fun j _ => ⟨rfl, rfl, rfl⟩

end

/-! ## Actions on the ledger -/

def forwards (F : Federation ι) (L : Ledger (Node ι) F64) : Action ι → Ledger (Node ι) F64
  | .drain i => L.forward F.nodeParent (.inr i)
  | .flush i => L.forward F.nodeParent (.inl i)
  | .emit _ _ _ | .reorder _ _ => L

def Action.isEmit : Action ι → Bool
  | .emit _ _ _ => true
  | _ => false

def Action.isReorder : Action ι → Bool
  | .reorder _ _ => true
  | _ => false

/-! ## The last drain -/

/-- Every process once, none before one of its children. -/
structure BottomUp (F : Federation ι) (order : List ι) : Prop where
  complete : ∀ i, i ∈ order
  sorted : order.Pairwise fun i j => i ≠ j ∧ F.parent j ≠ some i

def settle (F : Federation ι) (order : List ι) : List (Action ι) :=
  order.flatMap fun i => .drain i :: if i = F.root then [] else [.flush i]

def nodeOrder (order : List ι) : List (Node ι) := order.flatMap fun i => [.inr i, .inl i]

theorem foldl_settle (order : List ι) : (F.settle order).foldl F.forwards L =
    (nodeOrder order).foldl (Ledger.forward F.nodeParent) L := by
  induction order generalizing L with
  | nil => rfl
  | cons i order ih =>
    rw [settle, nodeOrder, flatMap_cons, flatMap_cons, foldl_append,
      foldl_append, ← settle, ← nodeOrder, ih]
    by_cases hi : i = F.root
    · have hstay (L : Ledger (Node ι) F64) : L.forward F.nodeParent (.inl i) = L := by
        simp [Ledger.forward, (F.parent_eq_none i).2 hi]
      simp [hi ▸ hstay, hi, forwards]
    · simp [hi, forwards]

theorem foldl_filter_reorder (as : List (Action ι)) :
    (as.filter (!·.isReorder)).foldl F.forwards L = as.foldl F.forwards L := by
  induction as generalizing L with
  | nil => rfl
  | cons a as ih =>
    cases a <;> exact ih

omit [DecidableEq ι] in
theorem pairwise_nodeOrder (h : F.BottomUp order) :
    (nodeOrder order).Pairwise fun m n => F.nodeParent n ≠ some m := by
  refine pairwise_flatMap.2 ⟨fun i _ => ?_, h.sorted.imp fun {i j} hij => ?_⟩
  · simp
  · obtain ⟨hne, hparent⟩ := hij
    have hne' : ∀ p, F.parent j = some p → ¬p = i := by
      rintro p hp rfl
      exact hparent hp
    simpa [hne.symm] using hne'

theorem settled_settle (h : F.BottomUp order) :
    ((F.settle order).foldl F.forwards L).Settled F.nodeParent := by
  intro n hn
  rw [foldl_settle]
  refine Ledger.unsent_forwards (pairwise_nodeOrder h) ?_ hn
  cases n with
  | inl i | inr i => exact mem_flatMap.2 ⟨i, h.complete i, by simp⟩

theorem settled_forwards (h : L.Settled F.nodeParent) (as : List (Action ι)) :
    (as.foldl F.forwards L).Settled F.nodeParent := by
  induction as generalizing L with
  | nil => exact h
  | cons a as ih =>
    refine ih ?_
    cases a with
    | drain i => exact h.forward (.inr i)
    | flush i => exact h.forward (.inl i)
    | emit | reorder => exact h

theorem isEmit_of_filter {as : List (Action ι)} (has : as.filter (!·.isReorder) = F.settle order)
    {a : Action ι} (ha : a ∈ as) : a.isEmit = false := by
  cases a with
  | emit i vuId x =>
    have hmem : Action.emit i vuId x ∈ F.settle order := has ▸ mem_filter.2 ⟨ha, rfl⟩
    obtain ⟨j, -, hj⟩ := mem_flatMap.1 hmem
    split_ifs at hj <;> simp at hj
  | _ => rfl

/-! ## Runs against the ledger -/

variable [Fintype ι] {s t : State ι} {all : Multiset F64}

/-- Under a key, the processes follow a ledger of what was recorded. -/
structure Follows (hdr : Hdr) (F : Federation ι) (kind : MetricKind) (k : SeriesKey)
    (L : Ledger (Node ι) F64) (all : Multiset F64) (s : State ι) : Prop where
  refines : Refines hdr kind k L s.nodes
  sound : L.Sound F.nodeParent all
  direct : s.direct.Holds hdr kind k all all

theorem Follows.forwards (h : Follows hdr F kind k L all s) {a : Action ι}
    (ha : a.isEmit = false) (hnext : F.next hdr s a = some t) :
    Follows hdr F kind k (F.forwards L a) all t := by
  cases a with
  | emit => cases ha
  | drain i =>
    cases hnext
    have hrefines : Refines hdr kind k (L.forward F.nodeParent (.inr i)) _ := h.refines.drain i
    exact ⟨hrefines, h.sound.forward (F.nodeParent_ne_self (.inr i)), h.direct⟩
  | flush i =>
    obtain ⟨p, hp, rfl⟩ := map_eq_some_iff.1 hnext
    exact ⟨h.refines.flush hp (h.sound.sent _ _ (by simp [hp])),
      h.sound.forward (F.nodeParent_ne_self (.inl i)), h.direct⟩
  | reorder i p =>
    simp only [next, ite_none_right_eq_some] at hnext
    obtain ⟨hp, hnext⟩ := hnext
    cases hnext
    exact ⟨h.refines.reorder hp, h.sound, h.direct⟩

theorem Follows.run (h : Follows hdr F kind k L all s) {as : List (Action ι)}
    (has : ∀ a ∈ as, a.isEmit = false) (hrun : (machine hdr F).run s as = some t) :
    Follows hdr F kind k (as.foldl F.forwards L) all t := by
  induction as generalizing s L with
  | nil =>
    cases hrun
    exact h
  | cons a as ih =>
    obtain ⟨ha, hrest⟩ := forall_mem_cons.1 has
    obtain ⟨u, hu, hrun⟩ := bind_eq_some_iff.1 hrun
    exact ih (h.forwards ha hu) hrest hrun

theorem Follows.emit (h : Follows hdr F kind k L all s) {vuId : ℕ}
    (hkind : x.key = k → x.kind = kind) (hfin : x.kind = .counter → x.value.isFinite = true)
    (hnext : F.next hdr s (.emit i vuId x) = some t) :
    ∃ L' all', Follows hdr F kind k L' all' t := by
  cases hnext
  by_cases hkey : x.key = k
  · have hkind := hkind hkey
    have hfin : kind = .counter → x.value.isFinite = true := hkind ▸ hfin
    obtain ⟨n, hrefines⟩ := h.refines.emit hkey hkind hfin i vuId
    have hdirect : (s.direct.record hdr x).Holds hdr kind k (x.value ::ₘ all)
        (x.value ::ₘ all) := by
      rw [← hkey] at h ⊢
      exact h.direct.record (fun _ => hkind) hfin
    exact ⟨_, _, hrefines, h.sound.deposit n x.value, hdirect⟩
  · exact ⟨L, all, h.refines.emit_of_ne hkey i vuId, h.sound, h.direct.record_of_ne hkey⟩

variable {kindOf : SeriesKey → MetricKind}

theorem follows_init (h : (machine hdr F).init s) : Follows hdr F kind k Ledger.empty 0 s := by
  obtain ⟨hdirect, hnodes⟩ := h
  refine ⟨⟨fun i => ?_, fun i => ?_⟩, Ledger.sound_empty, hdirect ▸ Aggregator.holds_new hdr kind k⟩
  · rcases hnodes i with hi | ⟨n, hi⟩ <;> rw [hi] <;> exact Aggregator.holds_new hdr kind k
  · rcases hnodes i with hi | ⟨n, hi⟩ <;> rw [hi]
    · exact .nil
    · exact .replicate _

theorem exists_follows (h : ((machine hdr F).guarded (Regular kindOf)).Reachable s)
    (k : SeriesKey) : ∃ L all, Follows hdr F (kindOf k) k L all s := by
  induction h with
  | init hinit => exact ⟨_, _, follows_init hinit⟩
  | @step s t a _ hs ih =>
    obtain ⟨L, all, ih⟩ := ih
    obtain ⟨hregular, hnext⟩ := Machine.guarded_next.1 hs
    cases hemit : a.isEmit with
    | false => exact ⟨_, _, ih.forwards hemit hnext⟩
    | true =>
      cases a with
      | emit i vuId x => exact ih.emit (fun hkey => hkey ▸ hregular.1) hregular.2 hnext
      | _ => cases hemit

def SameTotals (kindOf : SeriesKey → MetricKind) (a b : Aggregator) : Prop :=
  ∀ k, (a.dataAt (kindOf k) k).totals = (b.dataAt (kindOf k) k).totals

/-- After a last drain of every process, the root has the totals of an aggregator that recorded
every sample itself, also if processes are drained again. -/
theorem federation_lossless (F : Federation ι)
    (hs : ((machine hdr F).guarded (Regular kindOf)).Reachable s) {order : List ι}
    (horder : F.BottomUp order) {as bs : List (Action ι)}
    (has : as.filter (!·.isReorder) = F.settle order) (hbs : ∀ a ∈ bs, a.isEmit = false)
    (hrun : (machine hdr F).run s (as ++ bs) = some t) :
    SameTotals kindOf (t.nodes F.root).agg t.direct := by
  intro k
  obtain ⟨L, all, h⟩ := exists_follows hs k
  have hemit : ∀ a ∈ as ++ bs, a.isEmit = false :=
    forall_mem_append.2 ⟨fun a ha => isEmit_of_filter has ha, hbs⟩
  have h := h.run hemit hrun
  have hsettled : ((as ++ bs).foldl F.forwards L).Settled F.nodeParent := by
    rw [foldl_append, ← foldl_filter_reorder as, has]
    exact settled_forwards (settled_settle horder) bs
  have hroot (n : Node ι) : F.nodeParent n = none ↔ n = .inl F.root := by
    cases n <;> simp [F.parent_eq_none]
  have hagg := h.refines.agg F.root
  rw [h.sound.held_root hroot hsettled] at hagg
  exact hagg.represents.totals_eq h.direct.represents
    (hagg.data_kind.trans h.direct.data_kind.symm)

def fleet : Federation (Fin 3) where
  parent i := if i = 0 then none else some 0
  root := 0
  parent_eq_none := by decide
  rank i := if i = 0 then 1 else 0
  rank_lt := by decide

def fleetStart : State (Fin 3) where
  nodes i := if i = 1 then { shards := some (.new 2) } else {}

theorem fleetStart_init (hdr : Hdr) : (machine hdr fleet).init fleetStart := by
  refine ⟨rfl, fun i => ?_⟩
  by_cases h : i = 1
  · exact .inr ⟨2, if_pos h⟩
  · exact .inl (if_neg h)

theorem bottomUp_fleet : fleet.BottomUp [1, 2, 0] := by
  constructor <;> decide

def fleetSales : List (Action (Fin 3)) :=
  [.emit 1 0 ⟨"sold", .counter, .fin 2, []⟩, .emit 1 1 ⟨"sold", .counter, .fin 3, []⟩, .drain 1,
    .flush 1, .emit 2 0 ⟨"sold", .counter, .fin 4, []⟩]

theorem federation_lossless_fleet : ∃ s t : State (Fin 3),
    ((machine plainHdr fleet).guarded (Regular fun _ => .counter)).Reachable s ∧
    (machine plainHdr fleet).run s (fleet.settle [1, 2, 0] ++ [.drain 1]) = some t ∧
    t.direct.series.lookup ⟨"sold", []⟩ = some ⟨.counter, .counter (.fin 9) 0⟩ ∧
    SameTotals (fun _ => .counter) (t.nodes 0).agg t.direct := by
  have hinit : ((machine plainHdr fleet).guarded (Regular fun _ => .counter)).Reachable
      fleetStart := .init (fleetStart_init plainHdr)
  obtain ⟨s, t, hs, ht, hsold⟩ : ∃ s t,
      ((machine plainHdr fleet).guarded (Regular fun _ => .counter)).run fleetStart fleetSales =
        some s ∧
      (machine plainHdr fleet).run s (fleet.settle [1, 2, 0] ++ [.drain 1]) = some t ∧
      t.direct.series.lookup ⟨"sold", []⟩ = some ⟨.counter, .counter (.fin 9) 0⟩ :=
    ⟨_, _, rfl, rfl, by decide +kernel⟩
  exact ⟨s, t, hinit.run hs, ht, hsold, federation_lossless fleet (hinit.run hs) bottomUp_fleet
    (by rfl) (by simp [Action.isEmit]) ht⟩

/-- Agents that record one key with two kinds: the controller takes in only one of them. -/
theorem kinds_of_one_key_lost : ∃ t : State (Fin 3),
    (machine plainHdr fleet).run fleetStart
      ([.emit 2 0 ⟨"sold", .counter, .fin 2, []⟩, .emit 1 0 ⟨"sold", .rate, .fin 1, []⟩] ++
        fleet.settle [2, 1, 0]) = some t ∧
    t.direct.series.lookup ⟨"sold", []⟩ = some ⟨.counter, .counter (.fin 3) 0⟩ ∧
    (t.nodes 0).agg.series.lookup ⟨"sold", []⟩ = some ⟨.counter, .counter (.fin 2) 0⟩ := by
  refine ⟨_, rfl, ?_, ?_⟩ <;> decide +kernel

end Federation

end Loadr.Core
