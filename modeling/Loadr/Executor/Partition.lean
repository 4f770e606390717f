import Mathlib.Algebra.BigOperators.Ring.Finset
import Mathlib.Algebra.Order.BigOperators.Group.Finset
import Loadr.Plan

/-!
# Partitions of a plan

`partition_spec` gives each agent of a distributed run its share of an executor, `vu_capacity` is
the number of VU ids an executor can take, and `vu_placement` numbers the VUs of the whole fleet
with them.  The sums are of 64-bit words; below their overflow the shares of the partitions follow
one another without a gap (`vuPlacement_eq`).
-/

namespace Loadr

open List

/-- Addition of 64-bit words; it wraps in release builds. -/
def addU64 (a b : ℕ) : ℕ := (a + b) % 2 ^ 64

/-! ## Shares of an executor -/

/-- The remainder goes to the lowest indices. -/
def split (index count n : ℕ) : ℕ := n / count + if index < n % count then 1 else 0

theorem sum_lt {r n : ℕ} (h : r ≤ n) {R : Type*} [Semiring R] :
    ∑ i ∈ Finset.range n, (if i < r then 1 else 0 : R) = r := by
  have hfilter : (Finset.range n).filter (· < r) = Finset.range r := by
    ext i
    simp only [Finset.mem_filter, Finset.mem_range]
    omega
  rw [Finset.sum_boole, hfilter, Finset.card_range]

theorem sum_split {n : ℕ} (hn : 0 < n) (a : ℕ) : ∑ i ∈ Finset.range n, split i n a = a := by
  simp only [split, Finset.sum_add_distrib, Finset.sum_const, Finset.card_range]
  rw [sum_lt (Nat.mod_lt a hn).le]
  exact Nat.div_add_mod a n

def splitMin1 (index count n : ℕ) : ℕ := max (split index count n) (if 0 < n then 1 else 0)

def frac (count : ℕ) (rate : F64) : F64 := rate / .fin count

def partitionSpec (spec : ExecutorSpec) (index count : ℕ) : ExecutorSpec :=
  let split := split index count
  let splitMin1 := splitMin1 index count
  let frac := frac count
  match spec with
  | .constantVus vus duration => .constantVus (split vus) duration
  | .rampingVus startVus stages =>
    .rampingVus (split startVus) (stages.map fun (d, t) => (d, split t))
  | .constantArrivalRate rate duration preAllocatedVus maxVus =>
    .constantArrivalRate (frac rate) duration (splitMin1 preAllocatedVus) (splitMin1 maxVus)
  | .rampingArrivalRate startRate stages preAllocatedVus maxVus =>
    .rampingArrivalRate (frac startRate) (stages.map fun (d, r) => (d, frac r))
      (splitMin1 preAllocatedVus) (splitMin1 maxVus)
  | .perVuIterations vus iterations maxDuration =>
    .perVuIterations (split vus) iterations maxDuration
  | .sharedIterations vus iterations maxDuration =>
    .sharedIterations (splitMin1 vus) (split iterations) maxDuration
  | .externallyControlled maxVus duration => .externallyControlled (splitMin1 maxVus) duration

def vuCapacity : ExecutorSpec → ℕ
  | .constantVus vus _ | .perVuIterations vus _ _ | .sharedIterations vus _ _ => vus
  | .rampingVus startVus stages => (stages.map (·.2)).foldl max startVus
  | .constantArrivalRate _ _ preAllocatedVus maxVus
  | .rampingArrivalRate _ _ preAllocatedVus maxVus => max preAllocatedVus maxVus
  | .externallyControlled maxVus _ => maxVus

/-! ## The numbering of the fleet -/

structure VuPlacement where
  vus : ℕ
  vuOffset : ℕ
deriving DecidableEq, Repr

abbrev Scenarios := List (String × Scenario)

def addShares (display : F64 → String) (count : ℕ) : Scenarios → List ℕ → Except String (List ℕ)
  | [], shares => .ok shares
  | (name, scenario) :: scenarios, shares =>
    match scenario.executorSpec display with
    | .error e => .error ("scenario `" ++ name ++ "`: " ++ e)
    | .ok spec => addShares display count scenarios
      (shares.mapIdx fun i share => addU64 share (vuCapacity (partitionSpec spec i count)))

def vuPlacement (display : F64 → String) (scenarios : Scenarios) (partition : Option (ℕ × ℕ)) :
    Except String VuPlacement :=
  let (index, count) := partition.getD (0, 1)
  (addShares display count scenarios (List.replicate count 0)).map fun shares =>
    { vus := shares.getD index 0, vuOffset := (shares.take index).foldl addU64 0 }

variable {display : F64 → String} {scenarios : Scenarios} {specs : List ExecutorSpec} {i j n : ℕ}

/-- The executor specifications of valid scenarios. -/
def Specified (display : F64 → String) (scenarios : Scenarios) (specs : List ExecutorSpec) : Prop :=
  List.Forall₂ (fun scenario spec => scenario.2.executorSpec display = .ok spec) scenarios specs

def share (specs : List ExecutorSpec) (n i : ℕ) : ℕ :=
  (specs.map fun spec => vuCapacity (partitionSpec spec i n)).sum

/-- The numbers of `vuPlacement` fit into a word: each share, and the sum of those before it. -/
def Fits (specs : List ExecutorSpec) (n : ℕ) : Prop :=
  ∀ i < n, share specs n i < 2 ^ 64 ∧ ∑ j ∈ Finset.range i, share specs n j < 2 ^ 64

theorem addShares_eq (h : Specified display scenarios specs) (shares : List ℕ)
    (hlt : ∀ a ∈ shares, a < 2 ^ 64) :
    addShares display n scenarios shares =
      .ok (shares.mapIdx fun i a => addU64 a (share specs n i)) := by
  induction h generalizing shares with
  | nil =>
    refine congrArg Except.ok (ext_getElem? fun i => ?_)
    rw [getElem?_mapIdx]
    cases hi : shares[i]? with
    | none => rfl
    | some a =>
      have ha := Nat.mod_eq_of_lt (hlt a (mem_of_getElem? hi))
      simp only [Option.map_some, share, map_nil, sum_nil, addU64, Nat.add_zero]
      rw [ha]
  | @cons s spec scenarios specs hs _ ih =>
    obtain ⟨name, scenario⟩ := s
    unfold addShares
    rw [hs]
    dsimp only
    rw [ih]
    · refine congrArg Except.ok (ext_getElem? fun i => ?_)
      simp only [getElem?_mapIdx, Option.map_map]
      refine congrArg (fun f => Option.map f shares[i]?) (funext fun a => ?_)
      show addU64 (addU64 a _) (share specs n i) = addU64 a (share (spec :: specs) n i)
      simp only [addU64, share, map_cons, sum_cons]
      rw [Nat.mod_add_mod, Nat.add_assoc]
    · intro a ha
      obtain ⟨i, hi, rfl⟩ := mem_mapIdx.1 ha
      exact Nat.mod_lt _ (by decide)

theorem foldl_addU64 (l : List ℕ) (a : ℕ) (h : a + l.sum < 2 ^ 64) :
    l.foldl addU64 a = a + l.sum := by
  induction l generalizing a with
  | nil => rfl
  | cons b l ih =>
    rw [sum_cons] at h
    have hab : addU64 a b = a + b := Nat.mod_eq_of_lt (by omega)
    rw [foldl_cons, hab, ih _ (by omega), sum_cons, Nat.add_assoc]

/-- Where the numbers of the fleet fit into a word, a partition has room for its share and comes
after the shares of the partitions before it. -/
theorem vuPlacement_eq (h : Specified display scenarios specs)
    (hfit : Fits specs n) (hi : i < n) :
    vuPlacement display scenarios (some (i, n)) =
      .ok { vus := share specs n i, vuOffset := ∑ j ∈ Finset.range i, share specs n j } := by
  have hshares : (List.replicate n 0).mapIdx (fun i a => addU64 a (share specs n i)) =
      (List.range n).map (share specs n) := by
    refine ext_getElem? fun j => ?_
    rw [getElem?_mapIdx, getElem?_map]
    by_cases hj : j < n
    · rw [getElem?_replicate_of_lt hj, getElem?_range hj]
      simp only [Option.map_some, addU64, Nat.zero_add]
      rw [Nat.mod_eq_of_lt (hfit j hj).1]
    · rw [getElem?_eq_none (by simpa using hj), getElem?_eq_none (by simpa using hj)]
      rfl
  have hzero : ∀ a ∈ List.replicate n 0, a < 2 ^ 64 := by
    intro a ha
    rw [eq_of_mem_replicate ha]
    decide
  simp only [vuPlacement, Option.getD_some]
  rw [addShares_eq h _ hzero, hshares]
  have hsum : ((List.range i).map (share specs n)).sum = ∑ j ∈ Finset.range i, share specs n j :=
    rfl
  refine congrArg Except.ok (VuPlacement.mk.injEq .. ▸ ⟨?_, ?_⟩)
  · simp [List.getD, getElem?_range hi]
  · rw [← map_take, take_range, Nat.min_eq_left (Nat.le_of_lt hi), foldl_addU64]
    · rw [hsum, Nat.zero_add]
    · rw [hsum, Nat.zero_add]
      exact (hfit i hi).2

end Loadr
