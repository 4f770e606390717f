import Loadr.Lib.Duration
import Loadr.Lib.Machine
import Loadr.Lib.Spacing

/-!
# Request-rate ceiling

`Throttle` hands out slots for requests, one interval apart.

In every history the slots are spaced by the interval in the order in which they were reserved
(`spaced_slots`), whatever the callers read.
-/

namespace Loadr.Flow

open Option List

structure Throttle where
  interval : ℕ
  nextSlot : Option ℕ := none
deriving DecidableEq

namespace Throttle

/-- A throttle for a number of requests per second; `none` if the conversion of the interval
panics. -/
def new (requestsPerSecond : F64) : Option Throttle :=
  let rps := max requestsPerSecond (.fin (1 / 10 ^ 9))
  (Duration.fromSecsF64 (.fin 1 / rps)).map fun interval => { interval }

def slot (now : ℕ) (t : Throttle) : ℕ :=
  match t.nextSlot with
  | some next => if now < next then next else now
  | none => now

/-- Reserve the next slot; the result is how long to wait before it is used. -/
def reserve (now : ℕ) (t : Throttle) : ℕ × Throttle :=
  (t.slot now - now, { t with nextSlot := some (t.slot now + t.interval) })

theorem le_slot (now : ℕ) (t : Throttle) : now ≤ t.slot now := by
  unfold slot
  split
  · split_ifs <;> omega
  · exact le_rfl

theorem nextSlot_le_slot {t : Throttle} {next : ℕ} (h : t.nextSlot = some next) (now : ℕ) :
    next ≤ t.slot now := by
  simp only [slot, h]
  split_ifs <;> omega

theorem new_of_max {rate : F64} {q : ℚ} (hmax : max rate (.fin (1 / 10 ^ 9)) = .fin q)
    (hq : 1 / 10 ^ 9 ≤ q) : ∃ t, new rate = some t ∧ t.nextSlot = none := by
  have hpos : 0 < q := lt_of_lt_of_le (by norm_num) hq
  have hdiv : F64.fin 1 / .fin q = .fin (1 / q) := if_neg hpos.ne'
  have hlt : 1 / q < 2 ^ 64 := by
    rw [div_lt_iff₀ hpos]
    linarith
  have hle : 0 ≤ 1 / q := by positivity
  simp only [new, hmax, hdiv, Duration.fromSecsF64, if_pos (And.intro hle hlt), map_some]
  exact ⟨_, rfl, rfl⟩

theorem new_isSome (rate : F64) : ∃ t, new rate = some t ∧ t.nextSlot = none := by
  cases rate with
  | nan | negInf => exact new_of_max rfl le_rfl
  | posInf => exact ⟨_, rfl, rfl⟩
  | fin q => exact new_of_max rfl (le_max_right _ _)

end Throttle

/-! ## Concurrent callers -/

structure Grant (Caller : Type) where
  caller : Caller
  reading : ℕ
  wait : ℕ

def Grant.slot {Caller : Type} (g : Grant Caller) : ℕ := g.reading + g.wait

/-- A throttle with its callers; `readings` is what those have read that do not have the lock yet,
`grants` are in the order of the reservations. -/
structure Reservations (Caller : Type) where
  clock : ℕ
  throttle : Throttle
  readings : Caller → Option ℕ := fun _ => none
  grants : List (Grant Caller) := []

namespace Reservations

variable {Caller : Type} [DecidableEq Caller]

inductive Action (Caller : Type)
  | elapse (duration : ℕ)
  | readClock (caller : Caller)
  | lock (caller : Caller)

def next (s : Reservations Caller) : Action Caller → Option (Reservations Caller)
  | .elapse duration => some { s with clock := s.clock + duration }
  | .readClock caller =>
    if s.readings caller = none then
      some { s with readings := Function.update s.readings caller (some s.clock) }
    else none
  | .lock caller =>
    (s.readings caller).map fun now =>
      { s with
        throttle := (s.throttle.reserve now).2
        readings := Function.update s.readings caller none
        grants := s.grants ++ [⟨caller, now, (s.throttle.reserve now).1⟩] }

def machine (t : Throttle) : Machine (Reservations Caller) (Action Caller) where
  init s := s.throttle = t ∧ s.grants = [] ∧ s.readings = fun _ => none
  next := next

structure Sound (interval : ℕ) (s : Reservations Caller) : Prop where
  interval_eq : s.throttle.interval = interval
  spaced : Spaced interval (s.grants.map Grant.slot)
  fresh : s.throttle.nextSlot = none → s.grants = []
  before : ∀ next, s.throttle.nextSlot = some next → ∀ g ∈ s.grants, g.slot + interval ≤ next

variable {interval : ℕ} {s s' : Reservations Caller}

theorem Sound.lock (h : s.Sound interval) (caller : Caller) (now : ℕ) :
    Sound interval { s with
      throttle := (s.throttle.reserve now).2
      readings := Function.update s.readings caller none
      grants := s.grants ++ [⟨caller, now, (s.throttle.reserve now).1⟩] } := by
  have hslot : Grant.slot ⟨caller, now, (s.throttle.reserve now).1⟩ = s.throttle.slot now :=
    Nat.add_sub_cancel' (s.throttle.le_slot now)
  have hover : ∀ g ∈ s.grants, g.slot + interval ≤ s.throttle.slot now := by
    intro g hg
    cases hn : s.throttle.nextSlot with
    | none => simp [h.fresh hn] at hg
    | some next => exact (h.before next hn g hg).trans (Throttle.nextSlot_le_slot hn now)
  refine ⟨h.interval_eq, ?_, fun hn => (some_ne_none _ hn).elim, ?_⟩
  · rw [map_append, map_singleton, hslot]
    refine h.spaced.append_singleton ?_
    rintro x hx
    obtain ⟨g, hg, rfl⟩ := mem_map.1 hx
    exact hover g hg
  · rintro next ⟨⟩ g hg
    rw [h.interval_eq]
    rcases mem_append.1 hg with hg | hg
    · exact Nat.add_le_add_right ((Nat.le_add_right _ _).trans (hover g hg)) interval
    · rw [mem_singleton.1 hg, hslot]

theorem Sound.step {a : Action Caller} (h : s.Sound interval) (hs : s.next a = some s') :
    s'.Sound interval := by
  cases a with
  | elapse duration =>
    cases hs
    exact ⟨h.interval_eq, h.spaced, h.fresh, h.before⟩
  | readClock caller =>
    simp only [next, ite_none_right_eq_some, some.injEq] at hs
    obtain ⟨-, rfl⟩ := hs
    exact ⟨h.interval_eq, h.spaced, h.fresh, h.before⟩
  | lock caller =>
    simp only [next, map_eq_some_iff] at hs
    obtain ⟨now, -, rfl⟩ := hs
    exact h.lock caller now

theorem sound {t : Throttle} (ht : t.nextSlot = none)
    (h : (machine t).Reachable s) : s.Sound t.interval := by
  refine h.invariant ?_ fun s a s' _ hi hs => hi.step hs
  rintro s ⟨rfl, hgrants, -⟩
  refine ⟨rfl, by simp [hgrants, Spaced], fun _ => hgrants, ?_⟩
  intro next hn
  rw [ht] at hn
  cases hn

/-- In every history of a throttle of any rate the slots are spaced by its interval, none is before
the reading of its caller, and a window holds no more of them than its length allows.  An interval
of zero, to which the highest rates are rounded, allows any number. -/
theorem spaced_slots (rate : F64) : ∃ t, Throttle.new rate = some t ∧
    ∀ s : Reservations Caller, (machine t).Reachable s →
      (s.grants.Pairwise fun g g' => g.slot + t.interval ≤ g'.slot) ∧
      (∀ g ∈ s.grants, g.reading ≤ g.slot) ∧
      (0 < t.interval → ∀ start w : ℕ,
        s.grants.countP (fun g => inWindow start w g.slot) ≤ w / t.interval + 1) := by
  obtain ⟨t, hnew, hnone⟩ := Throttle.new_isSome rate
  refine ⟨t, hnew, fun s hr => ?_⟩
  have hsound := sound hnone hr
  refine ⟨pairwise_map.1 hsound.spaced, fun g _ => Nat.le_add_right _ _, ?_⟩
  intro hpos start w
  have hwindow := hsound.spaced.length_window hpos start w
  rw [← countP_eq_length_filter, countP_map] at hwindow
  exact hwindow

/-- The caller that reads the clock last is first to get the lock. -/
def crossed : List (Action Bool) :=
  [.readClock true, .elapse 3, .readClock false, .lock false, .lock true]

theorem spaced_slots_crossed : ∃ t, Throttle.new (.fin 2) = some t ∧ 0 < t.interval ∧
    ∃ s : Reservations Bool, (machine t).Reachable s ∧ s.grants.map (·.reading) = [3, 0] ∧
      (s.grants.Pairwise fun g g' => g.slot + t.interval ≤ g'.slot) ∧
      s.grants.countP (fun g => inWindow 3 (2 * t.interval) g.slot) ≤
        2 * t.interval / t.interval + 1 := by
  obtain ⟨t, hnew, hslots⟩ := @spaced_slots Bool _ (.fin 2)
  have ht : Throttle.new (.fin 2) = some ⟨500000000, none⟩ := by decide +kernel
  obtain rfl := some.inj (hnew.symm.trans ht)
  have hinit : (machine ⟨500000000, none⟩).init
      ({ clock := 0, throttle := ⟨500000000, none⟩ } : Reservations Bool) := ⟨rfl, rfl, rfl⟩
  obtain ⟨s, hs, hgrants⟩ := (machine ⟨500000000, none⟩).exists_reachable_of_run hinit crossed
    (fun s => s.grants.map (·.reading) = [3, 0]) (by decide +kernel)
  obtain ⟨hspaced, -, hwindow⟩ := hslots s hs
  exact ⟨_, hnew, by decide, s, hs, hgrants, hspaced, hwindow (by decide) _ _⟩

end Reservations

end Loadr.Flow
