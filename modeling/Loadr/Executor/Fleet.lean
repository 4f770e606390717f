import Mathlib.Algebra.Order.BigOperators.Group.Finset
import Mathlib.Order.CompletePartialOrder
import Mathlib.Order.Interval.Set.Disjoint
import Loadr.Executor.Pool

/-!
# VU ids across a fleet

An engine has one allocator of VU ids for all its scenarios.  An engine of partition `i` takes only
ids up to its share, so that the ids of all engines, each behind the offset of its partition, do not
overlap (`Fleet.vu_ids_fleet_wide`), unless a share or an offset overflows a word
(`Fleet.vu_ids_overflow`).
-/

namespace Loadr

open List

namespace Fleet

structure Engine where
  executors : List Executor
  vuIds : ℕ := 0
  allocated : List ℕ := []
deriving DecidableEq, Repr

def Engine.newWorker (e : Engine) : Engine :=
  { e with vuIds := addU64 e.vuIds 1, allocated := addU64 e.vuIds 1 :: e.allocated }

def next (e : Engine) (act : ℕ × Executor.Action) : Option Engine :=
  e.executors[act.1]?.bind fun x => (x.next act.2).map fun (x', takes) =>
    let e' := { e with executors := e.executors.set act.1 x' }
    if takes then e'.newWorker else e'

def initial (tick : ℕ) (specs : List ExecutorSpec) (i n : ℕ) : Engine where
  executors := specs.map fun spec => .ofSpec tick (partitionSpec spec i n)

def machine (tick : ℕ) (specs : List ExecutorSpec) (i n : ℕ) :
    Machine Engine (ℕ × Executor.Action) where
  init e := e = initial tick specs i n
  next := next

variable {tick : ℕ} {specs : List ExecutorSpec} {i n : ℕ} {e : Engine}

theorem sum_map_set {α : Type} {f : α → ℕ} {l : List α} {j : ℕ} {a b : α} (h : l[j]? = some a) :
    ((l.set j b).map f).sum + f a = (l.map f).sum + f b := by
  induction l generalizing j with
  | nil => cases h
  | cons c l ih =>
    cases j with
    | zero =>
      cases h
      simp only [set_cons_zero, map_cons, sum_cons]
      omega
    | succ j =>
      have := ih h
      simp only [set_cons_succ, map_cons, sum_cons]
      omega

/-- The ids taken are the first ones, and there is a VU for each. -/
structure Numbered (capacity : ℕ) (e : Engine) : Prop where
  created : e.vuIds = (e.executors.map Executor.created).sum
  bounded : (e.executors.map Executor.bound).sum ≤ capacity
  allocated : e.allocated = ((List.range e.vuIds).map (· + 1)).reverse

theorem Numbered.vuIds_le {capacity : ℕ} (h : Numbered capacity e) : e.vuIds ≤ capacity := by
  rw [h.created]
  exact (sum_le_sum fun x _ => x.created_le_bound).trans h.bounded

theorem Numbered.next {capacity : ℕ} (h : Numbered capacity e) (hfit : capacity < 2 ^ 64)
    {act : ℕ × Executor.Action} {e' : Engine} (hnext : next e act = some e') :
    Numbered capacity e' := by
  obtain ⟨x, hx, hnext⟩ := Option.bind_eq_some_iff.1 hnext
  obtain ⟨⟨x', takes⟩, hstep, rfl⟩ := Option.map_eq_some_iff.1 hnext
  have hcreated := Executor.created_next hstep
  have hbound := Executor.bound_next hstep
  have hsum := sum_map_set (f := Executor.created) (b := x') hx
  have hbounds := sum_map_set (f := Executor.bound) (b := x') hx
  have hbounded : ((e.executors.set act.1 x').map Executor.bound).sum ≤ capacity := by
    have := h.bounded
    omega
  have hids := h.created
  cases takes with
  | false =>
    refine ⟨?_, hbounded, h.allocated⟩
    show e.vuIds = ((e.executors.set act.1 x').map Executor.created).sum
    rw [Bool.toNat_false] at hcreated
    omega
  | true =>
    rw [Bool.toNat_true] at hcreated
    have hnew : e.vuIds + 1 = ((e.executors.set act.1 x').map Executor.created).sum := by omega
    -- the new id fits, as there is room for its VU
    have hle : e.vuIds + 1 ≤ capacity := by
      rw [hnew]
      exact (sum_le_sum fun x _ => x.created_le_bound).trans hbounded
    have hid : addU64 e.vuIds 1 = e.vuIds + 1 := Nat.mod_eq_of_lt (by omega)
    refine ⟨hid.trans hnew, hbounded, ?_⟩
    show addU64 e.vuIds 1 :: e.allocated = ((List.range (addU64 e.vuIds 1)).map (· + 1)).reverse
    rw [hid, range_succ, map_append, reverse_append, ← h.allocated]
    rfl

theorem numbered_of_reachable (hfit : share specs n i < 2 ^ 64)
    (h : (machine tick specs i n).Reachable e) : Numbered (share specs n i) e := by
  refine h.invariant ?_ fun e₁ act e₂ _ h₁ hnext => h₁.next hfit hnext
  rintro _ rfl
  refine ⟨?_, ?_, rfl⟩
  · symm
    refine sum_eq_zero fun c hc => ?_
    obtain ⟨x, hx, rfl⟩ := mem_map.1 hc
    obtain ⟨spec, -, rfl⟩ := mem_map.1 hx
    cases spec <;> rfl
  · simp only [initial, map_map, share]
    refine Nat.le_of_eq (congrArg List.sum (map_congr_left fun spec _ => ?_))
    exact Executor.bound_ofSpec tick _

theorem offset_add_share_le {i j : ℕ} (hij : i < j) :
    ∑ k ∈ Finset.range i, share specs n k + share specs n i ≤
      ∑ k ∈ Finset.range j, share specs n k := by
  rw [← Finset.sum_range_succ]
  exact Finset.sum_le_sum_of_subset (Finset.range_subset_range.2 hij)

/-- For valid scenarios whose shares and offsets fit into a word, the placements of the partitions
follow one another, every engine takes only ids of its own share, each once, and no two partitions
share a number. -/
theorem vu_ids_fleet_wide (display : F64 → String) (tick : ℕ) (scenarios : Scenarios)
    (specs : List ExecutorSpec) (n : ℕ) (hvalid : Specified display scenarios specs)
    (hfit : Fits specs n) :
    ∃ placement : ℕ → VuPlacement,
      (∀ i < n, vuPlacement display scenarios (some (i, n)) = .ok (placement i)) ∧
      (placement 0).vuOffset = 0 ∧
      (∀ i, i + 1 < n → (placement (i + 1)).vuOffset = (placement i).vuOffset + (placement i).vus) ∧
      (∀ i < n, ∀ e, (machine tick specs i n).Reachable e →
        e.allocated.Nodup ∧ ∀ v ∈ e.allocated, 1 ≤ v ∧ v ≤ (placement i).vus) ∧
      ∀ i < n, ∀ j < n, i ≠ j → Disjoint
        (Set.Ioc (placement i).vuOffset ((placement i).vuOffset + (placement i).vus))
        (Set.Ioc (placement j).vuOffset ((placement j).vuOffset + (placement j).vus)) := by
  refine ⟨fun i => ⟨share specs n i, ∑ j ∈ Finset.range i, share specs n j⟩,
    fun i hi => vuPlacement_eq hvalid hfit hi, rfl, fun i _ => Finset.sum_range_succ _ _,
    fun i hi e he => ?_, fun i hi j hj hij => ?_⟩
  · have hnumbered := numbered_of_reachable (hfit i hi).1 he
    rw [hnumbered.allocated]
    refine ⟨nodup_reverse.2 (nodup_range.map (add_left_injective 1)), fun v hv => ?_⟩
    obtain ⟨k, hk, rfl⟩ := mem_map.1 (mem_reverse.1 hv)
    have hle := hnumbered.vuIds_le
    have hlt := mem_range.1 hk
    exact ⟨Nat.le_add_left 1 k, show k + 1 ≤ share specs n i by omega⟩
  · rcases Nat.lt_or_gt_of_ne hij with hlt | hlt
    · exact Set.Ioc_disjoint_Ioc_of_le (offset_add_share_le hlt)
    · exact (Set.Ioc_disjoint_Ioc_of_le (offset_add_share_le hlt)).symm

def twoScenarios (maxVus : ℕ) : Scenarios :=
  [("a", { executor := .constantVus, vus := some 3, duration := some 5 }),
    ("b", { executor := .constantArrivalRate, rate := some (.fin 10), duration := some 5
            preAllocatedVus := some 1, maxVus := some maxVus })]

def twoSpecs (maxVus : ℕ) : List ExecutorSpec :=
  [.constantVus 3 5, .constantArrivalRate (.fin 10) 5 1 maxVus]

theorem vu_ids_fleet_wide_two :
    ∃ placement : ℕ → VuPlacement,
      (∀ i < 2, vuPlacement (fun _ => "") (twoScenarios 4) (some (i, 2)) = .ok (placement i)) ∧
      (placement 0, placement 1) = (⟨4, 0⟩, ⟨3, 4⟩) ∧
      ∀ i < 2, ∀ e, (machine 5 (twoSpecs 4) i 2).Reachable e →
        e.allocated.Nodup ∧ ∀ v ∈ e.allocated, 1 ≤ v ∧ v ≤ (placement i).vus := by
  have hvalid : Specified (fun _ => "") (twoScenarios 4) (twoSpecs 4) :=
    .cons (by decide +kernel) (.cons (by decide +kernel) .nil)
  have hfit : Fits (twoSpecs 4) 2 := by unfold Fits; decide
  obtain ⟨placement, hplacement, -, -, hids, -⟩ :=
    vu_ids_fleet_wide (fun _ => "") 5 (twoScenarios 4) (twoSpecs 4) 2 hvalid hfit
  refine ⟨placement, hplacement, ?_, hids⟩
  have h₀ : vuPlacement (fun _ => "") (twoScenarios 4) (some (0, 2)) = .ok ⟨4, 0⟩ := by decide
  have h₁ : vuPlacement (fun _ => "") (twoScenarios 4) (some (1, 2)) = .ok ⟨3, 4⟩ := by decide
  rw [Except.ok.inj ((hplacement 0 (by decide)).symm.trans h₀),
    Except.ok.inj ((hplacement 1 (by decide)).symm.trans h₁)]

/-- With a pool that may grow to almost a word, the share of the engine wraps, and the engine takes
ids it has no room for. -/
theorem vu_ids_overflow :
    Specified (fun _ => "") (twoScenarios (2 ^ 64 - 2)) (twoSpecs (2 ^ 64 - 2)) ∧
      vuPlacement (fun _ => "") (twoScenarios (2 ^ 64 - 2)) (some (0, 1)) = .ok ⟨1, 0⟩ ∧
      ∃ e, (machine 5 (twoSpecs (2 ^ 64 - 2)) 0 1).Reachable e ∧ 2 ∈ e.allocated := by
  refine ⟨.cons (by decide +kernel) (.cons (by decide +kernel) .nil), by decide, ?_⟩
  exact (machine 5 (twoSpecs (2 ^ 64 - 2)) 0 1).exists_reachable_of_run rfl
    [(0, .spawn), (0, .spawn), (0, .task 0 {}), (0, .task 1 {})] _ (by decide)

end Fleet

end Loadr
