import Loadr.Flow.Composition
import Loadr.Flow.Data

/-!
# Rows of an iteration

All references to a memory source within one iteration see one row, and the virtual user takes at
most one row of it per iteration, as long as these references all stand in one context: the main
flow or one parallel branch.  A branch starts with no rows and with new cursors.
-/

namespace Loadr.Flow

open Dialogue List Function

/-! ## The events of an iteration -/

theorem guarded_inner :
    Guarded (fun _ _ => True) (fun _ o => o ≠ .beginIteration) fun _ _ => True where
  congr _ _ := trivial
  script _ _ _ := trivial
  render _ _ _ := trivial
  items _ _ _ := trivial
  prepare _ _ _ := trivial
  quiet h := by
    rintro rfl
    exact h
  samples _ _ := nofun
  ended _ _ _ := nofun
  await _ _ := nofun
  push _ _ := trivial
  pop _ := trivial
  within {_ _ o} h := by cases o <;> simp_all [Output.within]
  dropped _ _ := nofun

theorem dataEvents_runIteration {program : ScenarioProgram} {script : Option Script}
    {vu : VuContext} {t : Transcript} {r : Option Result}
    (hruns : Runs Output.IsAwait (runIteration program script vu) t r) :
    ∃ events, dataEvents t = .beginIteration :: events ∧ .beginIteration ∉ events := by
  have hrest := guarded_inner.claims_iteration program script [] vu trivial
  have hall : (runIteration program script vu).Always Output.IsAwait fun t _ =>
      ∃ events, dataEvents t = .beginIteration :: events ∧ .beginIteration ∉ events := by
    refine ⟨fun h => h.elim, always_iff.2 fun u r hruns => ⟨dataEvents u, rfl, fun hbegin => ?_⟩⟩
    obtain ⟨entry, hentry, hevent⟩ := mem_flatMap.1 hbegin
    unfold dataEventsAt at hevent
    split at hevent
    · rename_i o
      have ho := (hrest.of_runs hruns fun _ _ _ => trivial).1 o (.inl hentry)
      cases o with
      | beginIteration => exact ho rfl
      | feed calls =>
        obtain ⟨call, -, hcall⟩ := mem_map.1 hevent
        cases call <;> cases hcall
      | _ => simp [Output.dataEvents] at hevent
    · simp at hevent
  exact always_iff.1 hall t r hruns

/-! ## The next row of a source -/

variable {order : List ℕ} {ws : List Row} {calls : List (DataEvent × Supply)}

section NextRow

variable {data : DataFeeds} {source s : String} {feed : MemoryFeed} {supply : Supply}
  {counters : Counters} {state : VuFeedState}

theorem nextRow_frame (h : s ≠ source) :
    (data.nextRow source supply counters state).2.2.cursors s = state.cursors s ∧
      (data.nextRow source supply counters state).2.2.shuffles s = state.shuffles s := by
  unfold DataFeeds.nextRow
  split
  · exact ⟨rfl, rfl⟩
  · split
    · split <;> exact ⟨rfl, rfl⟩
    · exact ⟨rfl, rfl⟩
    · exact ⟨rfl, rfl⟩
  · rename_i feed _
    unfold MemoryFeed.nextRow
    split
    · exact ⟨rfl, rfl⟩
    · cases feed.mode with
      | shared =>
        simp only
        split
        · exact ⟨rfl, rfl⟩
        · split
          · exact ⟨rfl, update_of_ne h _ _⟩
          · exact ⟨rfl, rfl⟩
      | perVu =>
        simp only
        split
        · exact ⟨update_of_ne h _ _, rfl⟩
        · split
          · exact ⟨update_of_ne h _ _, update_of_ne h _ _⟩
          · exact ⟨update_of_ne h _ _, rfl⟩

/-- The rows `ws` that a virtual user took of a source of its own are those of an order, which is
the order of the data unless the source is shuffled. -/
structure Walked (feed : MemoryFeed) (source : String) (state : VuFeedState) (ws : List Row)
    (order : List ℕ) : Prop where
  perm : order.Perm (List.range feed.rows.length)
  sequential : feed.pick = .sequential → order = List.range feed.rows.length
  shuffled : feed.pick = .shuffle → state.shuffles source = if ws = [] then none else some order
  row : ∀ j w, ws[j]? = some w → feed.at order j = some w
  cursor : state.cursors source = ws.length ∨
    feed.onEof = .stop ∧ feed.rows.length ≤ state.cursors source

theorem walked_new (feed : MemoryFeed) (source : String) :
    Walked feed source {} [] (List.range feed.rows.length) where
  perm := .refl _
  sequential _ := rfl
  shuffled _ := rfl
  row := by simp
  cursor := .inl rfl

theorem at_isSome (h : order.Perm (List.range feed.rows.length)) (cursor : ℕ) :
    (feed.at order cursor).isSome := by
  have hlength : order.length = feed.rows.length := by simpa using h.length_eq
  have hplace : cursor % feed.rows.length < order.length := by
    rw [hlength]
    exact Nat.mod_lt _ feed.nonempty
  have hrow : order[cursor % feed.rows.length] < feed.rows.length := by
    simpa using h.mem_iff.1 (getElem_mem hplace)
  simp [MemoryFeed.at, hplace, hrow]

theorem Walked.append {state' : VuFeedState} (h : Walked feed source state ws order)
    {order' : List ℕ} (hperm : order'.Perm (List.range feed.rows.length))
    (hsequential : feed.pick = .sequential → order' = List.range feed.rows.length)
    (horder : ws ≠ [] → order' = order)
    (hshuffled : feed.pick = .shuffle → state'.shuffles source = some order')
    (hcursor : state.cursors source = ws.length)
    (hnext : state'.cursors source = state.cursors source + 1) :
    Walked feed source state' (ws ++ [(feed.at order' (state.cursors source)).getD []]) order' where
  perm := hperm
  sequential := hsequential
  shuffled hpick := by simp [hshuffled hpick]
  row j w hw := by
    rcases Nat.lt_trichotomy j ws.length with hj | rfl | hj
    · rw [getElem?_append_left hj] at hw
      have hne : ws ≠ [] := by
        rintro rfl
        simp at hj
      rw [horder hne]
      exact h.row j w hw
    · rw [getElem?_append_right le_rfl, Nat.sub_self] at hw
      obtain ⟨row, hrow⟩ := Option.isSome_iff_exists.1 (at_isSome hperm ws.length)
      rw [hcursor, hrow] at hw
      rw [hrow]
      simpa using hw
    · rw [getElem?_eq_none (by simp; omega)] at hw
      simp at hw
  cursor := .inl (by simp [hnext, hcursor])

theorem Walked.next (h : Walked feed source state ws order) (supply : Supply) (counters : Counters)
    (hdata : data.get source = some (.memory feed)) (hmode : feed.mode = .perVu)
    (hpick : feed.pick ≠ .random) :
    ∃ order', Walked feed source (data.nextRow source supply counters state).2.2
      (ws ++ (data.nextRow source supply counters state).1.toOption.toList) order' := by
  have hnext : data.nextRow source supply counters state =
      feed.nextRow source supply counters state := by
    simp [DataFeeds.nextRow, hdata]
  rw [hnext]
  by_cases hend : feed.rows.length ≤ state.cursors source ∧ feed.onEof = .stop
  · -- The end of the data moves the cursor but gives no row.
    refine ⟨order, ?_⟩
    cases hcase : feed.pick with
    | random => cases hpick hcase
    | sequential | shuffle =>
      simp only [MemoryFeed.nextRow, hcase, hmode, hend, and_self, if_true]
      refine ⟨h.perm, h.sequential, by simpa [Except.toOption] using h.shuffled, ?_, .inr ⟨hend.2, ?_⟩⟩
      · simpa [Except.toOption] using h.row
      · simpa using Nat.le_succ_of_le hend.1
  · have hcursor : state.cursors source = ws.length :=
      h.cursor.resolve_right fun hstop => hend ⟨hstop.2, hstop.1⟩
    cases hcase : feed.pick with
    | random => cases hpick hcase
    | sequential =>
      refine ⟨order, ?_⟩
      simp only [MemoryFeed.nextRow, hcase, hmode, hend, if_false, ← h.sequential hcase]
      exact h.append h.perm h.sequential (fun _ => rfl)
        (fun h => absurd (hcase.symm.trans h) (by simp)) hcursor (by simp)
    | shuffle =>
      have horder : ((state.shuffles source).getD (supply.order feed.rows.length).1).Perm
          (List.range feed.rows.length) ∧
          (ws ≠ [] → (state.shuffles source).getD (supply.order feed.rows.length).1 = order) := by
        rw [h.shuffled hcase]
        split
        · exact ⟨(supply.order _).2, fun hne => absurd ‹ws = []› hne⟩
        · exact ⟨h.perm, fun _ => rfl⟩
      refine ⟨(state.shuffles source).getD (supply.order feed.rows.length).1, ?_⟩
      simp only [MemoryFeed.nextRow, hcase, hmode, hend, if_false]
      exact h.append horder.1 (fun h => absurd (hcase.symm.trans h) (by simp)) horder.2
        (fun _ => by simp) hcursor (by simp)

end NextRow

/-! ## References within an iteration -/

def takenRows (s : String) (references : List Reference) : List Row :=
  references.filterMap fun r => if r.source = s ∧ r.taken = true then r.result.toOption else none

def readers (s : String) : Place → List DataEvent → List ℕ
  | _, [] => []
  | place, event :: events =>
    (if event = .row s then [place.current] else []) ++ readers s (place.step event) events

def Sees (s : String) (references : List Reference) (row : Option Row) : Prop :=
  ∀ r ∈ references, r.source = s → ∀ w, r.result = .ok w → row = some w

@[simp] theorem sees_nil {s : String} {row : Option Row} : Sees s [] row := by simp [Sees]

@[simp] theorem takenRows_append (s : String) (r r' : List Reference) :
    takenRows s (r ++ r') = takenRows s r ++ takenRows s r' := by
  simp [takenRows]

/-- The contexts that the interpreter is in are made. -/
def Place.Made (place : Place) : Prop :=
  place.current < place.next ∧ ∀ i ∈ place.enclosing, i < place.next

theorem Place.Made.step {place : Place} (h : place.Made) (event : DataEvent) :
    (place.step event).Made ∧ place.next ≤ (place.step event).next := by
  cases event with
  | fork =>
    refine ⟨⟨Nat.lt_succ_self _, fun i hi => ?_⟩, Nat.le_succ _⟩
    rcases mem_cons.1 hi with rfl | hi
    · exact Nat.lt_succ_of_lt h.1
    · exact Nat.lt_succ_of_lt (h.2 i hi)
  | join =>
    unfold Place.step
    cases hparent : place.enclosing with
    | nil => exact ⟨h, le_rfl⟩
    | cons parent enclosing =>
      exact ⟨⟨h.2 parent (by simp [hparent]), fun i hi => h.2 i (by simp [hparent, hi])⟩, le_rfl⟩
  | _ => exact ⟨h, le_rfl⟩

/-- The row of source `s` that context `c` holds. -/
structure Holding (c : ℕ) (s : String) (f : Feeding) (row : Option Row) : Prop where
  row_eq : (f.contexts c).currentRows s = row
  place : f.place.Made
  made : row.isSome → c < f.place.next

section Iterations

variable {data : DataFeeds} {c : ℕ} {s : String} {feed : MemoryFeed} {f : Feeding}
  {row : Option Row} {event : DataEvent} {supply : Supply}

/-- What is left alone of source `s`: its walk, and its row unless an iteration begins. -/
structure Framed (s : String) (event : DataEvent) (cx cx' : DataContext) : Prop where
  cursors : cx'.state.cursors s = cx.state.cursors s
  shuffles : cx'.state.shuffles s = cx.state.shuffles s
  rows : event ≠ .beginIteration → cx'.currentRows s = cx.currentRows s

theorem framed_dataRow {source : String} {counters : Counters} (h : s ≠ source)
    (cx : DataContext) : Framed s event cx (cx.dataRow data source supply counters).2.2 := by
  unfold DataContext.dataRow
  split
  · exact ⟨rfl, rfl, fun _ => rfl⟩
  · simp only
    split
    · exact ⟨(nextRow_frame h).1, (nextRow_frame h).2, fun _ => update_of_ne h _ _⟩
    · exact ⟨(nextRow_frame h).1, (nextRow_frame h).2, fun _ => rfl⟩

theorem framed_step (hdata : data.get s = some (.memory feed)) (hrow : event ≠ .row s)
    (hnew : event = .fork → c ≠ f.place.next) :
    Framed s event (f.contexts c) ((f.step data event supply).1.contexts c) := by
  have hset {cx : DataContext} (h : Framed s event f.current cx) :
      Framed s event (f.contexts c) ((f.setCurrent cx).contexts c) := by
    by_cases hc : c = f.place.current
    · subst hc
      simpa [Feeding.setCurrent, Feeding.current] using h
    · simpa [Feeding.setCurrent, hc] using ⟨rfl, rfl, fun _ => rfl⟩
  cases event with
  | beginIteration => exact hset ⟨rfl, rfl, fun h => absurd rfl h⟩
  | beginRequest | message =>
    refine hset ?_
    simp only [DataContext.beginRequest, DataContext.beginMessage]
    split_ifs
    · exact ⟨rfl, rfl, fun _ => by simp [DataFeeds.isOnDemand, hdata, Feed.isOnDemand]; rfl⟩
    · exact ⟨rfl, rfl, fun _ => rfl⟩
  | reportResult => exact hset ⟨rfl, rfl, fun _ => rfl⟩
  | row source => exact hset (framed_dataRow (fun h => hrow (congrArg _ h.symm)) _)
  | fork => simpa [Feeding.step, Feeding.advance, hnew rfl] using ⟨rfl, rfl, fun _ => rfl⟩
  | join => exact ⟨rfl, rfl, fun _ => rfl⟩

theorem references_step (hrow : event ≠ .row s) (row : Option Row) :
    takenRows s (f.step data event supply).2 = [] ∧ Sees s (f.step data event supply).2 row := by
  cases event with
  | row source =>
    have hsource : source ≠ s := fun h => hrow (h ▸ rfl)
    simp [Feeding.step, takenRows, Sees, Feeding.refer, hsource]
  | _ => exact ⟨rfl, sees_nil⟩

theorem place_step : (f.step data event supply).1.place = f.place.step event := by
  cases event <;> rfl

theorem Holding.refer (h : Holding c s f row) (hc : f.place.current = c) :
    ∃ row', Holding c s (f.refer data s supply).1 row' ∧
      row.toList ++ takenRows s [(f.refer data s supply).2] = row'.toList ∧
      Sees s [(f.refer data s supply).2] row' := by
  subst hc
  have hplace : (f.refer data s supply).1.place = f.place := rfl
  have hcontext : (f.refer data s supply).1.contexts f.place.current =
      (f.current.dataRow data s supply f.counters).2.2 := by
    simp [Feeding.refer, Feeding.setCurrent]
  have hcurrent : f.current.currentRows s = row := h.row_eq
  refine ⟨((f.current.dataRow data s supply f.counters).2.2).currentRows s,
    ⟨by rw [hcontext], h.place, fun _ => h.place.1⟩, ?_⟩
  unfold Feeding.refer DataContext.dataRow
  cases row with
  | some w => simp [takenRows, Sees, hcurrent]
  | none =>
    simp only [hcurrent]
    cases hresult : (data.nextRow s supply f.counters f.current.state).1 with
    | ok w => simp [takenRows, Sees, Except.toOption]
    | error e => simp [takenRows, Sees, Except.toOption, hcurrent]

theorem Holding.step (h : Holding c s f row) (supply : Supply)
    (hdata : data.get s = some (.memory feed)) (hevent : event ≠ .beginIteration)
    (hreader : event = .row s → f.place.current = c) :
    ∃ row', Holding c s (f.step data event supply).1 row' ∧
      row.toList ++ takenRows s (f.step data event supply).2 = row'.toList ∧
      Sees s (f.step data event supply).2 row' := by
  by_cases hrow : event = .row s
  · subst hrow
    have hadvance : Holding c s (f.advance supply.others) row := ⟨h.row_eq, h.place, h.made⟩
    exact hadvance.refer (hreader rfl)
  · obtain ⟨hplace, hle⟩ := h.place.step event
    obtain ⟨htaken, hsees⟩ := @references_step data s f event supply hrow row
    refine ⟨row, ⟨?_, place_step ▸ hplace, fun h' => place_step ▸ (h.made h').trans_le hle⟩,
      by rw [htaken, append_nil], hsees⟩
    by_cases hnew : event = .fork ∧ c = f.place.next
    · -- A context that is made now has held no row.
      obtain ⟨rfl, rfl⟩ := hnew
      have hnone : row = none := by
        cases row with
        | none => rfl
        | some w => exact absurd (h.made rfl) (Nat.lt_irrefl _)
      simp [Feeding.step, Feeding.advance, DataContext.child, hnone]
    · rw [(framed_step hdata hrow fun he hc => hnew ⟨he, hc⟩).rows hevent, h.row_eq]

/-- Within an iteration a context takes at most one row of a memory source. -/
theorem Holding.run (h : Holding c s f row) (hdata : data.get s = some (.memory feed))
    (hbegin : .beginIteration ∉ calls.map Prod.fst)
    (hreaders : ∀ i ∈ readers s f.place (calls.map Prod.fst), i = c) :
    ∃ row', row.toList ++ takenRows s (f.run data calls).2 = row'.toList ∧
      Sees s (f.run data calls).2 row' := by
  induction calls generalizing f row with
  | nil => exact ⟨row, by simp [Feeding.run, takenRows], sees_nil⟩
  | cons call calls ih =>
    obtain ⟨event, supply⟩ := call
    simp only [map_cons, mem_cons, not_or, readers, mem_append] at hbegin hreaders
    have hreader : event = .row s → f.place.current = c := fun hrow =>
      hreaders _ (.inl (by simp [hrow]))
    obtain ⟨row₁, hstep, htaken, hsees⟩ := h.step supply hdata (Ne.symm hbegin.1) hreader
    obtain ⟨row', htaken', hsees'⟩ := ih hstep hbegin.2 fun i hi =>
      hreaders i (.inr (place_step ▸ hi))
    refine ⟨row', ?_, ?_⟩
    · simp only [Feeding.run, takenRows_append, ← append_assoc, htaken]
      exact htaken'
    · intro r hr hsource w hw
      rcases mem_append.1 hr with hr | hr
      · -- The row that is held stays.
        rw [hsees r hr hsource w hw] at htaken'
        cases row' with
        | none => simp at htaken'
        | some w' => rw [(List.cons.inj htaken').1]
      · exact hsees' r hr hsource w hw

/-! ## The walk of a virtual user -/

theorem Walked.congr {state state' : VuFeedState} (h : Walked feed s state ws order)
    (hcursors : state'.cursors s = state.cursors s)
    (hshuffles : state'.shuffles s = state.shuffles s) : Walked feed s state' ws order :=
  ⟨h.perm, h.sequential, hshuffles ▸ h.shuffled, h.row, hcursors ▸ h.cursor⟩

/-- The walk of the source `s` in the main flow. -/
def Feeding.Walks (feed : MemoryFeed) (s : String) (f : Feeding) (ws : List Row) : Prop :=
  ∃ order, Walked feed s (f.contexts 0).state ws order

section

variable (h : f.Walks feed s ws)
include h

theorem Feeding.Walks.refer (hdata : data.get s = some (.memory feed))
    (hmode : feed.mode = .perVu) (hpick : feed.pick ≠ .random) (hc : f.place.current = 0) :
    (f.refer data s supply).1.Walks feed s (ws ++ takenRows s [(f.refer data s supply).2]) := by
  obtain ⟨order, h⟩ := h
  have hcurrent : f.current = f.contexts 0 := by rw [Feeding.current, hc]
  have hcontext : (f.refer data s supply).1.contexts 0 =
      (f.current.dataRow data s supply f.counters).2.2 := by
    simp [Feeding.refer, Feeding.setCurrent, hc]
  unfold Feeding.Walks
  rw [hcontext]
  unfold Feeding.refer DataContext.dataRow
  rw [hcurrent]
  cases hrow : (f.contexts 0).currentRows s with
  | some w => exact ⟨order, by simpa [takenRows, hrow] using h⟩
  | none =>
    obtain ⟨order', h'⟩ := h.next supply f.counters hdata hmode hpick
    refine ⟨order', ?_⟩
    cases hresult : (data.nextRow s supply f.counters (f.contexts 0).state).1 with
    | ok | error => simpa [takenRows, hresult, Except.toOption] using h'

section

variable (hdata : data.get s = some (.memory feed)) (hmode : feed.mode = .perVu)
  (hpick : feed.pick ≠ .random)
include hdata hmode hpick

theorem Feeding.Walks.step
    (hreader : event = .row s → f.place.current = 0) (hnext : 0 < f.place.next) :
    (f.step data event supply).1.Walks feed s (ws ++ takenRows s (f.step data event supply).2) := by
  by_cases hrow : event = .row s
  · subst hrow
    have hadvance : (f.advance supply.others).Walks feed s ws := h
    exact hadvance.refer hdata hmode hpick (hreader rfl)
  · obtain ⟨order, h⟩ := h
    have hframed : Framed s event (f.contexts 0) ((f.step data event supply).1.contexts 0) :=
      framed_step hdata hrow fun _ => Nat.ne_of_lt hnext
    rw [(references_step hrow none).1, append_nil]
    exact ⟨order, h.congr hframed.cursors hframed.shuffles⟩

theorem Feeding.Walks.run
    (hreaders : ∀ i ∈ readers s f.place (calls.map Prod.fst), i = 0) (hnext : 0 < f.place.next) :
    (f.run data calls).1.Walks feed s (ws ++ takenRows s (f.run data calls).2) := by
  induction calls generalizing f ws with
  | nil => simpa [Feeding.run, takenRows] using h
  | cons call calls ih =>
    obtain ⟨event, supply⟩ := call
    simp only [map_cons, readers, mem_append] at hreaders
    have hreader : event = .row s → f.place.current = 0 := fun hrow =>
      hreaders _ (.inl (by simp [hrow]))
    have hplace : 0 < (f.step data event supply).1.place.next := by
      rw [place_step]
      cases event with
      | fork => exact Nat.succ_pos _
      | join =>
        unfold Place.step
        cases f.place.enclosing <;> exact hnext
      | _ => exact hnext
    have hstep : (f.step data event supply).1.Walks feed s _ :=
      h.step hdata hmode hpick hreader hnext
    have hrest := ih hstep (fun i hi => hreaders i (.inr (place_step ▸ hi))) hplace
    simpa [Feeding.run] using hrest

end

end

end Iterations

/-! ## Histories -/

/-- The data of a virtual user after some iterations, whose events satisfy `ok`, and the references
of each of them.  Between iterations and within them other virtual users take rows. -/
inductive Fed (program : ScenarioProgram) (script : Option Script) (data : DataFeeds)
    (ok : List DataEvent → Prop) : Feeding → List (List Reference) → Prop
  | new (counters : Counters) : Fed program script data ok { counters } []
  | iterated {f : Feeding} {logs : List (List Reference)} {vu : VuContext} {t : Transcript}
      {r : Option Result} {calls : List (DataEvent × Supply)}
      (h : Fed program script data ok f logs)
      (hruns : Runs Output.IsAwait (runIteration program script vu) t r)
      (hcalls : calls.map Prod.fst = dataEvents t) (hok : ok (dataEvents t)) :
      Fed program script data ok (f.run data calls).1.endIteration (logs ++ [(f.run data calls).2])

/-- The references to a memory source all stand in one context, which is the main flow if each
virtual user walks the source on its own. -/
def Undivided (data : DataFeeds) (events : List DataEvent) : Prop :=
  ∀ s feed, data.get s = some (.memory feed) →
    ∃ c, (∀ i ∈ readers s {} events, i = c) ∧ (feed.mode = .perVu → c = 0)

/-- All references of an iteration to the source see one row, and only that row is taken of it. -/
def OneRow (s : String) (references : List Reference) : Prop :=
  ∃ row : Option Row, takenRows s references = row.toList ∧ Sees s references row

/-- The rows are those of the data in their order, or in an order fixed once if they are shuffled,
from the first on and around. -/
def InOrder (feed : MemoryFeed) (ws : List Row) : Prop :=
  ∃ order : List ℕ, order.Perm (List.range feed.rows.length) ∧
    (feed.pick = .sequential → order = List.range feed.rows.length) ∧
    ∀ j w, ws[j]? = some w → feed.at order j = some w

section Histories

variable {program : ScenarioProgram} {script : Option Script} {data : DataFeeds}
  {ok : List DataEvent → Prop} {f : Feeding} {logs : List (List Reference)} {s : String}
  {feed : MemoryFeed}

theorem Fed.ready (h : Fed program script data ok f logs) :
    f.place = {} ∧ ∀ i, i ≠ 0 → f.contexts i = {} := by
  cases h with
  | new => exact ⟨rfl, fun _ _ => rfl⟩
  | iterated => exact ⟨rfl, fun i hi => by simp [Feeding.endIteration, hi]⟩

theorem oneRow_of_run (hplace : f.place = {}) (hcontexts : ∀ i, i ≠ 0 → f.contexts i = {})
    {events : List DataEvent} (hcalls : calls.map Prod.fst = .beginIteration :: events)
    (hbegin : .beginIteration ∉ events) (hdata : data.get s = some (.memory feed)) {c : ℕ}
    (hreaders : ∀ i ∈ readers s {} (.beginIteration :: events), i = c) :
    OneRow s (f.run data calls).2 := by
  obtain ⟨⟨event, supply⟩, calls, rfl, rfl, rfl⟩ := map_eq_cons_iff.1 hcalls
  have hstep : (f.step data .beginIteration supply).1.place = {} := place_step.trans (by
    rw [hplace]
    rfl)
  -- Beginning the iteration clears the rows of the main flow, and there are no branches yet.
  have hholding : Holding c s (f.step data .beginIteration supply).1 none := by
    refine ⟨?_, by simp [hstep, Place.Made], by simp⟩
    by_cases hc : c = 0
    · simp [hc, Feeding.step, Feeding.setCurrent, Feeding.advance, hplace,
        DataContext.beginIteration]
    · simp [hc, Feeding.step, Feeding.setCurrent, Feeding.advance, hplace, hcontexts c hc]
  obtain ⟨row, htaken, hsees⟩ := hholding.run hdata hbegin (by
    rw [hstep]
    simpa [readers, Place.step] using hreaders)
  exact ⟨row, by simpa [Feeding.run, Feeding.step] using htaken, by
    simpa [Feeding.run, Feeding.step] using hsees⟩

theorem Fed.walks (h : Fed program script data (Undivided data) f logs)
    (hdata : data.get s = some (.memory feed)) (hmode : feed.mode = .perVu)
    (hpick : feed.pick ≠ .random) : f.Walks feed s (logs.flatMap (takenRows s)) := by
  induction h with
  | new => exact ⟨_, walked_new feed s⟩
  | @iterated f logs vu t r calls h hruns hcalls hok ih =>
    obtain ⟨c, hreaders, hc⟩ := hok s feed hdata
    have hreaders : ∀ i ∈ readers s f.place (calls.map Prod.fst), i = 0 := by
      rw [hcalls, h.ready.1]
      exact hc hmode ▸ hreaders
    have hrun : (f.run data calls).1.Walks feed s _ :=
      ih.run hdata hmode hpick hreaders (by simp [h.ready.1])
    obtain ⟨order, hwalked⟩ := hrun
    exact ⟨order, by simpa [Feeding.endIteration] using hwalked⟩

/-- In any history of iterations each of which refers to a memory source in one context only, all
references of an iteration to it see one row and at most that row is taken; and the rows that the
virtual user takes of a source of its own walk the data in order. -/
theorem one_row_per_iteration (h : Fed program script data (Undivided data) f logs)
    (hdata : data.get s = some (.memory feed)) :
    (∀ log ∈ logs, OneRow s log) ∧
      (feed.mode = .perVu → feed.pick ≠ .random → InOrder feed (logs.flatMap (takenRows s))) := by
  constructor
  · induction h with
    | new => simp
    | @iterated f logs vu t r calls h hruns hcalls hok ih =>
      obtain ⟨c, hreaders, -⟩ := hok s feed hdata
      obtain ⟨events, hevents, hbegin⟩ := dataEvents_runIteration hruns
      intro log hlog
      rcases mem_append.1 hlog with hlog | hlog
      · exact ih log hlog
      · rw [mem_singleton.1 hlog]
        exact oneRow_of_run h.ready.1 h.ready.2 (hcalls.trans hevents) hbegin hdata
          (hevents ▸ hreaders)
  · intro hmode hpick
    obtain ⟨order, hwalked⟩ := h.walks hdata hmode hpick
    exact ⟨order, hwalked.perm, hwalked.sequential, hwalked.row⟩

end Histories

def greet (name : String) : CompiledStep := .request ⟨name, "http", "GET", [], [], []⟩

/-- Every request refers to the source while it is prepared, and is answered. -/
def greeted : (q : Query) → Option q.Answer
  | .prepare req => some ⟨.ready req.displayName, fun _ => none, 0, [], [.row "users"]⟩
  | .handled _ => some true
  | .execute _ => some {}
  | .elapsed => some (.fin 0)
  | .cancelled => some none
  | _ => none

def userFeed (mode : DataMode) : MemoryFeed :=
  { rows := [[("name", "ada")], [("name", "bob")]], nonempty := by decide, mode }

def noDraws : Supply := .unshuffled (.ok .exhausted)

theorem exists_fed {program : ScenarioProgram} {data : DataFeeds} {ok : List DataEvent → Prop}
    {events : List DataEvent} (hok : ok events)
    (h : ((runIteration program none .new).trial greeted fun _ => false).any
      (fun x => dataEvents x.1 = events) = true) :
    Fed program none data ok
      (({} : Feeding).run data (events.map (·, noDraws))).1.endIteration
      [(({} : Feeding).run data (events.map (·, noDraws))).2] := by
  obtain ⟨t, r, hruns, -, hp⟩ := exists_runs_of_trial (W := Output.IsAwait)
    (d := runIteration program none .new) greeted (fun _ => false) (by simp)
    (fun t _ => dataEvents t = events) h
  have ht : dataEvents t = events := by simpa using hp
  exact (Fed.new {}).iterated hruns (by simp [comp_def, ht]) (ht.symm ▸ hok)

def userData (mode : DataMode) : DataFeeds := ⟨[("users", .memory (userFeed mode))]⟩

theorem one_row_per_iteration_main :
    ∃ f log, Fed { name := "greetings", steps := [greet "hello", greet "bye"] } none
        (userData .perVu) (Undivided (userData .perVu)) f [log] ∧
      log.length = 2 ∧ OneRow "users" log ∧ InOrder (userFeed .perVu) (takenRows "users" log) := by
  have hok : Undivided (userData .perVu) [.beginIteration, .beginRequest, .row "users",
      .reportResult, .beginRequest, .row "users", .reportResult] := by
    intro s feed hdata
    refine ⟨0, ?_, fun _ => rfl⟩
    simp [readers, Place.step]
  have hfed : Fed { name := "greetings", steps := [greet "hello", greet "bye"] } none
      (userData .perVu) (Undivided (userData .perVu)) _ _ := exists_fed hok (by decide +kernel)
  have hdata : (userData .perVu).get "users" = some (.memory (userFeed .perVu)) := rfl
  have hone := one_row_per_iteration hfed hdata
  refine ⟨_, _, hfed, rfl, hone.1 _ (by simp), ?_⟩
  simpa using hone.2 rfl (by decide)

/-- Two branches of one iteration take a row each. -/
theorem branches_take_rows :
    ∃ f log, Fed { name := "greetings", steps := [.parallel [[greet "hello"], [greet "bye"]]] } none
        (userData .shared) (fun _ => True) f [log] ∧
      takenRows "users" log = [[("name", "ada")], [("name", "bob")]] ∧ ¬ OneRow "users" log := by
  have hrows : takenRows "users" (({} : Feeding).run (userData .shared)
      ([.beginIteration, .fork, .beginRequest, .row "users", .reportResult, .join, .fork,
        .beginRequest, .row "users", .reportResult, .join].map (·, noDraws))).2 =
      [[("name", "ada")], [("name", "bob")]] := by decide +kernel
  refine ⟨_, _, exists_fed trivial (by decide +kernel), hrows, ?_⟩
  rintro ⟨row, htaken, -⟩
  rw [hrows] at htaken
  cases row <;> simp at htaken

end Loadr.Flow
