import Mathlib.Data.List.Rotate
import Loadr.Flow.Data
import Loadr.Lib.Machine

/-!
# Rows of a shared source

The calls of several virtual users for the next row of one memory source that they share.  The
cursor is the same for all of them, but each walks a shuffled source in an order of its own.
-/

namespace Loadr.Flow

open List

/-! ## Calls -/

def MemoryFeed.orderFor (feed : MemoryFeed) (source : String) (supply : Supply)
    (state : VuFeedState) : List ℕ :=
  match feed.pick with
  | .shuffle => (state.shuffles source).getD (supply.order feed.rows.length).1
  | _ => List.range feed.rows.length

/-- A place of the cursor that has a row. -/
def MemoryFeed.Serves (feed : MemoryFeed) (cursor : ℕ) : Prop :=
  cursor < feed.rows.length ∨ feed.onEof = .recycle

instance (feed : MemoryFeed) (cursor : ℕ) : Decidable (feed.Serves cursor) :=
  inferInstanceAs (Decidable (_ ∨ _))

structure Pull (Vu : Type) where
  vu : Vu
  cursor : ℕ
  order : List ℕ
  result : Except NextRowError Row

structure SharedWalk (Vu : Type) where
  counters : Counters := {}
  states : Vu → VuFeedState := fun _ => {}
  pulls : List (Pull Vu) := []

namespace SharedWalk

variable {Vu : Type} [DecidableEq Vu] {feed : MemoryFeed} {source : String}

def pull (feed : MemoryFeed) (source : String) (vu : Vu) (supply : Supply) (s : SharedWalk Vu) :
    SharedWalk Vu :=
  let called := feed.nextRow source supply s.counters (s.states vu)
  { counters := called.2.1
    states := Function.update s.states vu called.2.2
    pulls := s.pulls ++ [⟨vu, s.counters.shared source,
      feed.orderFor source supply (s.states vu), called.1⟩] }

def machine (feed : MemoryFeed) (source : String) : Machine (SharedWalk Vu) (Vu × Supply) where
  init s := s = {}
  next s a := some (s.pull feed source a.1 a.2)

/-- A call that is given a row walks the order that all such calls before it walked. -/
def SameOrder (feed : MemoryFeed) (source : String) (s : SharedWalk Vu) (a : Vu × Supply) : Prop :=
  feed.Serves (s.counters.shared source) →
    ∀ p ∈ s.pulls, feed.Serves p.cursor → p.order = feed.orderFor source a.2 (s.states a.1)

instance (s : SharedWalk Vu) (a : Vu × Supply) : Decidable (SameOrder feed source s a) :=
  inferInstanceAs (Decidable (_ → ∀ p ∈ s.pulls, _ → _))

/-- Every row is handed out once before the source is exhausted or starts again. -/
structure HandsOutOnce (feed : MemoryFeed) (source : String) (s : SharedWalk Vu) : Prop where
  cursors : s.pulls.map Pull.cursor = List.range s.pulls.length
  no_row_twice : feed.onEof = .stop →
    ((s.pulls.take feed.rows.length).map Pull.result).Subperm (feed.rows.map .ok)
  all_rows : feed.onEof = .stop → feed.rows.length ≤ s.pulls.length →
    ((s.pulls.take feed.rows.length).map Pull.result).Perm (feed.rows.map .ok)
  exhausted : feed.onEof = .stop →
    ∀ p ∈ s.pulls.drop feed.rows.length, p.result = .error (.exhausted source)
  blocks : feed.onEof = .recycle → ∀ c, c + feed.rows.length ≤ s.pulls.length →
    (((s.pulls.drop c).take feed.rows.length).map Pull.result).Perm (feed.rows.map .ok)

end SharedWalk

/-! ## One call -/

variable {order : List ℕ}

section NextRow

variable {feed : MemoryFeed} {source : String}

theorem orderFor_perm (supply : Supply) {state : VuFeedState}
    (h : ∀ order, state.shuffles source = some order → order.Perm (List.range feed.rows.length)) :
    (feed.orderFor source supply state).Perm (List.range feed.rows.length) := by
  unfold MemoryFeed.orderFor
  split
  · cases hs : state.shuffles source with
    | none => exact (supply.order _).2
    | some order => exact h order hs
  · exact .refl _

theorem nextRow_shared (hmode : feed.mode = .shared) (hpick : feed.pick ≠ .random)
    (supply : Supply) (counters : Counters) (state : VuFeedState) :
    (feed.nextRow source supply counters state).1 =
        (if feed.Serves (counters.shared source) then
          .ok ((feed.at (feed.orderFor source supply state) (counters.shared source)).getD [])
        else .error (.exhausted source)) ∧
      (feed.nextRow source supply counters state).2.1.shared source =
        counters.shared source + 1 := by
  have hserves : feed.Serves (counters.shared source) ↔
      ¬ (feed.rows.length ≤ counters.shared source ∧ feed.onEof = .stop) := by
    unfold MemoryFeed.Serves
    cases feed.onEof <;> simp
  simp only [MemoryFeed.nextRow, MemoryFeed.orderFor, hmode, hserves]
  cases hp : feed.pick with
  | random => cases hpick hp
  | _ => simp only; split_ifs <;> simp

theorem shuffles_nextRow (hmode : feed.mode = .shared) {supply : Supply} {counters : Counters}
    {state : VuFeedState}
    (h : (feed.nextRow source supply counters state).2.2.shuffles source = some order) :
    state.shuffles source = some order ∨ order = feed.orderFor source supply state := by
  simp only [MemoryFeed.nextRow, MemoryFeed.orderFor, hmode] at h ⊢
  cases hp : feed.pick with
  | shuffle =>
    simp only [hp] at h ⊢
    split_ifs at h
    · exact .inl h
    · simp only [Function.update_self, Option.some.injEq] at h
      exact .inr h.symm
  | sequential =>
    simp only [hp] at h
    split_ifs at h <;> exact .inl h
  | random =>
    simp only [hp] at h
    exact .inl h

def MemoryFeed.walk (feed : MemoryFeed) (order : List ℕ) : List Row :=
  order.map fun j => feed.rows[j]?.getD []

theorem walk_perm (h : order.Perm (List.range feed.rows.length)) :
    (feed.walk order).Perm feed.rows := by
  have hrange : feed.walk (List.range feed.rows.length) = feed.rows := by
    refine ext_getElem (by simp [MemoryFeed.walk]) fun i hi hi' => ?_
    simp [MemoryFeed.walk, hi']
  exact hrange ▸ h.map _

theorem getElem_walk (h : order.Perm (List.range feed.rows.length)) {cursor : ℕ}
    (hc : cursor % feed.rows.length < (feed.walk order).length) :
    (feed.at order cursor).getD [] = (feed.walk order)[cursor % feed.rows.length] := by
  have hlength : order.length = feed.rows.length := by simpa using h.length_eq
  have hplace : cursor % feed.rows.length < order.length := by
    simpa [MemoryFeed.walk] using hc
  simp [MemoryFeed.at, MemoryFeed.walk, hplace]

end NextRow

namespace SharedWalk

variable {Vu : Type} [DecidableEq Vu] {feed : MemoryFeed} {source : String}
  {s : SharedWalk Vu} {vu : Vu} {supply : Supply}

/-! ## Histories -/

structure Sound (feed : MemoryFeed) (source : String) (s : SharedWalk Vu) : Prop where
  cursor : s.counters.shared source = s.pulls.length
  cursors : s.pulls.map Pull.cursor = List.range s.pulls.length
  shuffles : ∀ vu order, (s.states vu).shuffles source = some order →
    order.Perm (List.range feed.rows.length)
  orders : ∀ p ∈ s.pulls, p.order.Perm (List.range feed.rows.length)
  results : ∀ p ∈ s.pulls, p.result =
    if feed.Serves p.cursor then .ok ((feed.at p.order p.cursor).getD [])
    else .error (.exhausted source)

theorem sound_new (feed : MemoryFeed) (source : String) :
    Sound feed source ({} : SharedWalk Vu) where
  cursor := rfl
  cursors := rfl
  shuffles _ _ h := by cases h
  orders _ h := by cases h
  results _ h := by cases h

theorem Sound.pull (hmode : feed.mode = .shared) (hpick : feed.pick ≠ .random)
    (h : s.Sound feed source) (vu : Vu) (supply : Supply) :
    (s.pull feed source vu supply).Sound feed source := by
  obtain ⟨hresult, hcursor⟩ := nextRow_shared hmode hpick supply s.counters (s.states vu)
  have hperm := orderFor_perm supply (h.shuffles vu)
  refine ⟨?_, ?_, ?_, ?_, ?_⟩
  · rw [SharedWalk.pull, hcursor, h.cursor, length_append, length_singleton]
  · rw [SharedWalk.pull, map_append, map_singleton, h.cursors, h.cursor, length_append,
      length_singleton, range_succ]
  · intro vu' order horder
    rcases eq_or_ne vu' vu with rfl | hne
    · simp only [SharedWalk.pull, Function.update_self] at horder
      rcases shuffles_nextRow hmode horder with hold | rfl
      · exact h.shuffles vu' order hold
      · exact hperm
    · simp only [SharedWalk.pull, Function.update_of_ne hne] at horder
      exact h.shuffles vu' order horder
  · intro p hp
    rcases mem_append.1 hp with hp | hp
    · exact h.orders p hp
    · rw [mem_singleton.1 hp]
      exact hperm
  · intro p hp
    rcases mem_append.1 hp with hp | hp
    · exact h.results p hp
    · rw [mem_singleton.1 hp]
      exact hresult

/-- All calls that were given a row walked one order. -/
def OneOrder (feed : MemoryFeed) (s : SharedWalk Vu) (order : List ℕ) : Prop :=
  order.Perm (List.range feed.rows.length) ∧ ∀ p ∈ s.pulls, feed.Serves p.cursor → p.order = order

theorem exists_oneOrder_pull (h : s.Sound feed source) (hone : ∃ order, s.OneOrder feed order)
    (hsame : SameOrder feed source s (vu, supply)) :
    ∃ order, (s.pull feed source vu supply).OneOrder feed order := by
  obtain ⟨order, hperm, hall⟩ := hone
  have hperm' := orderFor_perm supply (h.shuffles vu)
  by_cases hserves : feed.Serves (s.counters.shared source)
  · refine ⟨feed.orderFor source supply (s.states vu), hperm', ?_⟩
    intro p hp hps
    rcases mem_append.1 hp with hp | hp
    · exact hsame hserves p hp hps
    · rw [mem_singleton.1 hp]
  · refine ⟨order, hperm, ?_⟩
    intro p hp hps
    rcases mem_append.1 hp with hp | hp
    · exact hall p hp hps
    · rw [mem_singleton.1 hp] at hps
      cases hserves hps

/-! ## Blocks of the cursor -/

theorem Sound.getElem_cursor (h : s.Sound feed source) {i : ℕ} (hi : i < s.pulls.length) :
    s.pulls[i].cursor = i := by
  have hmap : (s.pulls.map Pull.cursor)[i]? = (List.range s.pulls.length)[i]? := by rw [h.cursors]
  simpa [hi] using hmap

theorem Sound.block (h : s.Sound feed source) (hone : s.OneOrder feed order) {c : ℕ}
    (hserves : ∀ i, c ≤ i → i < c + feed.rows.length → feed.Serves i) :
    ((s.pulls.drop c).take feed.rows.length).map Pull.result =
      (((feed.walk order).rotate c).take (s.pulls.length - c)).map .ok := by
  have hwalk := (walk_perm hone.1).length_eq
  refine ext_getElem (by simp [hwalk, Nat.min_comm]) fun i hi hi' => ?_
  simp only [length_map, length_take, length_drop, lt_inf_iff] at hi
  have hc : c + i < s.pulls.length := by omega
  have hmem : s.pulls[c + i] ∈ s.pulls := getElem_mem hc
  have hcursor := h.getElem_cursor hc
  have hsv : feed.Serves s.pulls[c + i].cursor := by
    rw [hcursor]
    exact hserves (c + i) (by omega) (by omega)
  have hplace : (c + i) % feed.rows.length < (feed.walk order).length := by
    rw [hwalk]
    exact Nat.mod_lt _ feed.nonempty
  simp only [getElem_map, getElem_take, getElem_drop, getElem_rotate]
  rw [h.results _ hmem, if_pos hsv, hone.2 _ hmem hsv, hcursor, getElem_walk hone.1 hplace]
  simp only [hwalk, Nat.add_comm]

theorem Sound.handsOutOnce (h : s.Sound feed source) (hone : s.OneOrder feed order) :
    s.HandsOutOnce feed source := by
  have hwalk := walk_perm hone.1
  have hlength := hwalk.length_eq
  have hfirst : (s.pulls.take feed.rows.length).map Pull.result =
      ((feed.walk order).take s.pulls.length).map .ok := by
    have hblock := h.block hone fun i (_ : 0 ≤ i) hi => .inl (by omega)
    simpa using hblock
  refine ⟨h.cursors, fun _ => ?_, fun _ hle => ?_, fun hstop p hp => ?_, fun hrec c hc => ?_⟩
  · rw [hfirst]
    exact ((take_sublist _ _).map _).subperm.trans (hwalk.map _).subperm
  · rw [hfirst, take_of_length_le (by omega)]
    exact hwalk.map _
  · obtain ⟨i, hi, rfl⟩ := mem_iff_getElem.1 hp
    rw [length_drop] at hi
    have hlt : feed.rows.length + i < s.pulls.length := by omega
    have hcursor := h.getElem_cursor hlt
    rw [getElem_drop, h.results _ (getElem_mem hlt), hcursor, if_neg]
    simp [MemoryFeed.Serves, hstop]
  · rw [h.block hone fun _ _ _ => .inr hrec,
      take_of_length_le (by rw [length_rotate]; omega)]
    exact ((rotate_perm _ c).trans hwalk).map _

theorem sound_of_reachable (hmode : feed.mode = .shared) (hpick : feed.pick ≠ .random)
    (h : ((machine feed source).guarded (SameOrder feed source)).Reachable s) :
    s.Sound feed source ∧ ∃ order, s.OneOrder feed order := by
  induction h with
  | init h =>
    subst h
    exact ⟨sound_new feed source, List.range feed.rows.length, .refl _, by simp⟩
  | step _ hs ih =>
    obtain ⟨hsame, hs⟩ := Machine.guarded_next.1 hs
    cases hs
    exact ⟨ih.1.pull hmode hpick _ _, exists_oneOrder_pull ih.1 ih.2 hsame⟩

/-- Rows are handed out once in every history in which those that were given a row walked the same
order. -/
theorem hands_out_once (hmode : feed.mode = .shared) (hpick : feed.pick ≠ .random)
    (h : ((machine feed source).guarded (SameOrder feed source)).Reachable s) :
    s.HandsOutOnce feed source := by
  obtain ⟨hsound, order, hone⟩ := sound_of_reachable hmode hpick h
  exact hsound.handsOutOnce hone

theorem order_of_sequential (hpick : feed.pick = .sequential)
    (h : (machine feed source).Reachable s) :
    ∀ p ∈ s.pulls, p.order = List.range feed.rows.length := by
  induction h with
  | init h =>
    subst h
    simp
  | step _ hs ih =>
    cases hs
    intro p hp
    rcases mem_append.1 hp with hp | hp
    · exact ih p hp
    · rw [mem_singleton.1 hp, MemoryFeed.orderFor, hpick]

/-- The condition is met in every history of a source that is not shuffled. -/
theorem guarded_of_sequential (hpick : feed.pick = .sequential)
    (h : (machine feed source).Reachable s) :
    ((machine feed source).guarded (SameOrder feed source)).Reachable s := by
  induction h with
  | init h => exact .init h
  | step hr hs ih =>
    refine .step ih (Machine.guarded_next.2 ⟨?_, hs⟩)
    intro _ p hp _
    rw [order_of_sequential hpick hr p hp, MemoryFeed.orderFor, hpick]

def people : MemoryFeed where
  rows := [[("name", "ann")], [("name", "bob")]]
  nonempty := by decide
  onEof := .stop
  pick := .shuffle

def draws (reversed : Bool) : Supply :=
  let unshuffled := Supply.unshuffled (.ok .exhausted)
  if reversed then
    { unshuffled with order := fun len => ⟨(List.range len).reverse, List.reverse_perm _⟩ }
  else unshuffled

theorem hands_out_once_people : ∃ s : SharedWalk Bool, s.pulls.length = 3 ∧
    s.HandsOutOnce people "people" := by
  obtain ⟨s, hs, hlength⟩ := ((machine people "people").guarded
    (SameOrder people "people")).exists_reachable_of_run rfl
    [(false, draws true), (true, draws true), (false, draws false)]
    (fun s => s.pulls.length = 3) (by decide +kernel)
  exact ⟨s, hlength, hands_out_once rfl (by decide) hs⟩

/-- Two users that shuffled a source differently: both are given the first row, and nobody the
second one. -/
theorem shuffled_twice : ∃ s : SharedWalk Bool,
    (machine people "people").Reachable s ∧ ¬ s.HandsOutOnce people "people" := by
  let s : SharedWalk Bool := ({} : SharedWalk Bool)
    |>.pull people "people" false (draws false) |>.pull people "people" true (draws true)
  have hreach : (machine people "people").Reachable s :=
    .step (.step (.init rfl) (a := (false, draws false)) rfl) (a := (true, draws true)) rfl
  refine ⟨s, hreach, fun h => ?_⟩
  have hresults : (s.pulls.take people.rows.length).map Pull.result =
      [.ok [("name", "ann")], .ok [("name", "ann")]] := rfl
  have hperm := h.all_rows rfl (by decide +kernel)
  rw [hresults] at hperm
  have hbob := hperm.mem_iff (a := .ok [("name", "bob")])
  exact absurd (hbob.2 (by simp [people])) (by simp)

end SharedWalk

end Loadr.Flow
