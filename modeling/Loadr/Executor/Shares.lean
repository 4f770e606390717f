import Mathlib.Algebra.Group.Action.Defs
import Loadr.Controller.Handlers
import Loadr.Executor.Partition
import Loadr.Lib.Fallible

/-!
# Shares of the load

The controller divides a load twice: `partition_spec` gives every agent its part of an executor, and
`scale_shares` divides the VUs an externally controlled scenario is scaled to.  Both leave the
remainder to the lowest indices, so a total within the scenario's bound is within the bound of every
agent.
-/

namespace Loadr

open Controller (scaleShares)
open Fallible (bind_ok_iff pure_ok_iff)

namespace ExecutorSpec

/-- The numbers of VUs and of iterations that the partitions divide exactly. -/
def loads : ExecutorSpec → List ℕ
  | .constantVus vus _ | .perVuIterations vus _ _ => [vus]
  | .rampingVus startVus stages => startVus :: stages.map (·.2)
  | .sharedIterations _ iterations _ => [iterations]
  | .constantArrivalRate .. | .rampingArrivalRate .. | .externallyControlled .. => []

def pool : ExecutorSpec → Option (ℕ × ℕ)
  | .constantArrivalRate _ _ preAllocatedVus maxVus
  | .rampingArrivalRate _ _ preAllocatedVus maxVus => some (preAllocatedVus, maxVus)
  | _ => none

/-- What the shares rely on in a specification that was checked. -/
def Checked : ExecutorSpec → Prop
  | .sharedIterations vus _ _ => 0 < vus
  | .constantArrivalRate _ _ preAllocatedVus maxVus
  | .rampingArrivalRate _ _ preAllocatedVus maxVus => preAllocatedVus ≤ maxVus
  | _ => True

end ExecutorSpec

/-- The shares add up to the total, and no two differ by more than one. -/
structure EvenShares (n total : ℕ) (share : ℕ → ℕ) : Prop where
  sum : ∑ i ∈ Finset.range n, share i = total
  near : ∀ i < n, ∀ j < n, share i ≤ share j + 1

variable {display : F64 → String} {s : Scenario} {spec : ExecutorSpec} {i n a b : ℕ}

theorem required_ok_iff {α : Type} {field : String} {x : Option α} {v : α} :
    s.required field x = .ok v ↔ x = some v := by
  cases x <;> simp [Scenario.required]

theorem refuse_ok_iff {bad : Bool} {message : String} {u : Unit} :
    Scenario.refuse bad message = .ok u ↔ bad = false := by
  cases bad <;> simp [Scenario.refuse]

theorem checked_of_executorSpec (h : s.executorSpec display = .ok spec) : spec.Checked := by
  have hpool {p} (hp : s.pool = .ok p) : s.preAllocatedVus = some p.1 ∧ p.1 ≤ p.2 := by
    simp only [Scenario.pool, bind_ok_iff, pure_ok_iff, required_ok_iff, refuse_ok_iff] at hp
    obtain ⟨pre, hpre, -, hle, rfl⟩ := hp
    exact ⟨hpre, by simpa using hle⟩
  simp only [Scenario.executorSpec, bind_ok_iff] at h
  obtain ⟨-, -, h⟩ := h
  split at h <;> simp only [bind_ok_iff, pure_ok_iff, required_ok_iff, refuse_ok_iff] at h
  · obtain ⟨vus, -, duration, -, -, -, -, -, rfl⟩ := h
    trivial
  · obtain ⟨-, -, stages, -, rfl⟩ := h
    trivial
  · obtain ⟨rate, -, duration, -, pre, hpre, -, -, p, hp, rfl⟩ := h
    obtain ⟨hpre', hle⟩ := hpool hp
    cases hpre.symm.trans hpre'
    exact hle
  · obtain ⟨-, -, p, hp, stages, -, rfl⟩ := h
    exact (hpool hp).2
  · obtain ⟨vus, -, iterations, -, -, -, rfl⟩ := h
    trivial
  · obtain ⟨vus, -, iterations, -, -, hpos, rfl⟩ := h
    simp only [Bool.or_eq_false_iff, beq_eq_false_iff_ne] at hpos
    exact Nat.pos_of_ne_zero hpos.1
  · obtain ⟨maxVus, -, -, -, rfl⟩ := h
    trivial

theorem evenShares_split (hn : 0 < n) (a : ℕ) : EvenShares n a fun i => split i n a := by
  refine ⟨sum_split hn a, fun i _ j _ => ?_⟩
  simp only [split]
  split <;> split <;> omega

theorem split_mono (h : a ≤ b) : split i n a ≤ split i n b := by
  have hdiv : a / n ≤ b / n := Nat.div_le_div_right h
  have ha := Nat.div_add_mod a n
  have hb := Nat.div_add_mod b n
  simp only [split]
  by_cases heq : a / n = b / n
  · rw [heq] at ha ⊢
    have hmod : a % n ≤ b % n := by omega
    split <;> split <;> omega
  · split <;> split <;> omega

theorem splitMin1_mono (h : a ≤ b) : splitMin1 i n a ≤ splitMin1 i n b := by
  refine max_le_max (split_mono h) ?_
  split <;> split <;> omega

theorem splitMin1_pos (h : 0 < a) : 0 < splitMin1 i n a := by
  simp [splitMin1, h]

@[simp] theorem loads_partitionSpec (spec : ExecutorSpec) (i n : ℕ) :
    (partitionSpec spec i n).loads = spec.loads.map (split i n) := by
  cases spec <;> simp [partitionSpec, ExecutorSpec.loads]

/-- The shares of the agents are exact, and what an agent is scaled to is within its own bound. -/
theorem shares_exact (h : s.executorSpec display = .ok spec) (hn : 0 < n) :
    (∀ k total, spec.loads[k]? = some total →
      EvenShares n total fun i => (partitionSpec spec i n).loads.getD k 0) ∧
    (∀ i < n, ∀ vus iterations maxDuration,
      partitionSpec spec i n = .sharedIterations vus iterations maxDuration →
        0 < iterations → 0 < vus) ∧
    (∀ i < n, ∀ pre maxVus, (partitionSpec spec i n).pool = some (pre, maxVus) → pre ≤ maxVus) ∧
    ∀ maxVus duration, spec = .externallyControlled maxVus duration → ∀ total ≤ maxVus,
      (scaleShares total n).sum = total ∧
        ∀ i share, (scaleShares total n)[i]? = some share →
          ∃ own, partitionSpec spec i n = .externallyControlled own duration ∧ share ≤ own := by
  have hchecked := checked_of_executorSpec h
  refine ⟨fun k total hk => ?_, fun i _ vus iterations maxDuration heq _ => ?_,
    fun i _ pre maxVus heq => ?_, fun maxVus duration heq total ht => ⟨?_, fun i share hi => ?_⟩⟩
  · simpa [List.getD, hk] using evenShares_split hn total
  · cases spec with
    | sharedIterations =>
      cases heq
      exact splitMin1_pos hchecked
    | _ => cases heq
  · cases spec with
    | constantArrivalRate | rampingArrivalRate =>
      cases heq
      exact splitMin1_mono hchecked
    | _ => cases heq
  · exact sum_split hn total
  · subst heq
    refine ⟨splitMin1 i n maxVus, rfl, ?_⟩
    obtain ⟨_, rfl⟩ : i < n ∧ split i n total = share := by
      simpa [scaleShares, split, List.getElem?_range, List.getElem?_eq_some_iff] using hi
    exact le_max_of_le_left (split_mono ht)

theorem shares_exact_three : ∃ s : Scenario,
    s.executorSpec (fun _ => "") = .ok (.externallyControlled 7 none) ∧
      (scaleShares 4 3).sum = 4 ∧ ∀ i share, (scaleShares 4 3)[i]? = some share →
        ∃ own, partitionSpec (.externallyControlled 7 none) i 3 = .externallyControlled own none ∧
          share ≤ own := by
  have h : Scenario.executorSpec (fun _ => "")
      { executor := .externallyControlled, maxVus := some 7 } =
      .ok (.externallyControlled 7 none) := rfl
  exact ⟨_, h, (shares_exact h (by decide)).2.2.2 7 none rfl 4 (by decide)⟩

end Loadr
