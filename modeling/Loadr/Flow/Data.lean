import Loadr.Flow.Program

/-!
# Data feeds

The data sources of a test, backed by rows in memory or by a plugin.  Rows in memory are walked with
a cursor, which all virtual users share or each has of its own; a shuffled source is walked in an
order of the virtual user's own.

What a call gets from outside is a `Supply`: the draws of the generator, the answer of the plugin,
and the rows that other virtual users took from the shared cursors in the meantime.  What a plugin
is told about the caller is left out.
-/

namespace Loadr.Flow

/-! ## Sources -/

abbrev Row := List (String × String)

inductive DataMode
  | shared
  | perVu
deriving DecidableEq

inductive OnEof
  | recycle
  | stop
deriving DecidableEq

inductive PickStrategy
  | sequential
  | random
  | shuffle
deriving DecidableEq

/-- Rows in memory.  Loading refuses a source without rows. -/
structure MemoryFeed where
  rows : List Row
  nonempty : 0 < rows.length
  mode : DataMode := .shared
  onEof : OnEof := .recycle
  pick : PickStrategy := .sequential

inductive Feed
  | memory (feed : MemoryFeed)
  /-- Rows of a plugin, which may want to see the results of the requests that used them. -/
  | plugin (reports : Bool)

def Feed.isOnDemand : Feed → Bool
  | .memory _ => false
  | .plugin _ => true

structure DataFeeds where
  feeds : List (String × Feed)

namespace DataFeeds

def get (data : DataFeeds) (source : String) : Option Feed := data.feeds.lookup source

def hasOnDemand (data : DataFeeds) : Bool := data.feeds.any (·.2.isOnDemand)

def isOnDemand (data : DataFeeds) (source : String) : Bool := (data.get source).any Feed.isOnDemand

end DataFeeds

/-! ## State -/

structure PendingRow where
  source : String
  seq : ℕ
  row : Row

structure VuFeedState where
  cursors : String → ℕ := fun _ => 0
  shuffles : String → Option (List ℕ) := fun _ => none
  pending : List PendingRow := []

def VuFeedState.forkForParallel (_state : VuFeedState) : VuFeedState := {}

/-- The counters outside of the feeder state: the cursors that all virtual users share, and the
sequence numbers that the branches of one share. -/
structure Counters where
  shared : String → ℕ := fun _ => 0
  sequences : String → ℕ := fun _ => 0

inductive NextRowError
  | unknownSource (source : String)
  | exhausted (source : String)
  | plugin (source message : String)
deriving DecidableEq

inductive PluginRowResult
  | row (row : Row)
  | exhausted

structure Supply where
  index : (len : ℕ) → 0 < len → Fin len
  order : (len : ℕ) → { order : List ℕ // order.Perm (List.range len) }
  answer : Except String PluginRowResult
  /-- The rows that others took from the shared cursors. -/
  others : String → ℕ

/-- The first index is drawn and no order is shuffled. -/
def Supply.unshuffled (answer : Except String PluginRowResult) : Supply where
  index _ h := ⟨0, h⟩
  order len := ⟨List.range len, .refl _⟩
  answer
  others _ := 0

/-! ## The next row -/

def MemoryFeed.at (feed : MemoryFeed) (order : List ℕ) (cursor : ℕ) : Option Row :=
  order[cursor % feed.rows.length]?.bind (feed.rows[·]?)

def MemoryFeed.nextRow (feed : MemoryFeed) (source : String) (supply : Supply) (counters : Counters)
    (state : VuFeedState) : Except NextRowError Row × Counters × VuFeedState :=
  match feed.pick with
  | .random =>
    -- A draw does not move the cursor and never comes to an end.
    (.ok (feed.rows.get (supply.index feed.rows.length feed.nonempty)), counters, state)
  | pick =>
    let cursor := match feed.mode with
      | .shared => counters.shared source
      | .perVu => state.cursors source
    let counters := match feed.mode with
      | .shared => { counters with shared := Function.update counters.shared source (cursor + 1) }
      | .perVu => counters
    let state := match feed.mode with
      | .shared => state
      | .perVu => { state with cursors := Function.update state.cursors source (cursor + 1) }
    if feed.rows.length ≤ cursor ∧ feed.onEof = .stop then
      (.error (.exhausted source), counters, state)
    else match pick with
      | .shuffle =>
        let order := (state.shuffles source).getD (supply.order feed.rows.length).1
        (.ok ((feed.at order cursor).getD []), counters,
          { state with shuffles := Function.update state.shuffles source (some order) })
      | _ => (.ok ((feed.at (List.range feed.rows.length) cursor).getD []), counters, state)

def DataFeeds.nextRow (data : DataFeeds) (source : String) (supply : Supply) (counters : Counters)
    (state : VuFeedState) : Except NextRowError Row × Counters × VuFeedState :=
  match data.get source with
  | none => (.error (.unknownSource source), counters, state)
  | some (.plugin reports) =>
    let seq := counters.sequences source
    let counters :=
      { counters with sequences := Function.update counters.sequences source (seq + 1) }
    match supply.answer with
    | .ok (.row row) => (.ok row, counters,
        if reports then { state with pending := state.pending ++ [⟨source, seq, row⟩] } else state)
    | .ok .exhausted => (.error (.exhausted source), counters, state)
    | .error message => (.error (.plugin source message), counters, state)
  | some (.memory feed) => feed.nextRow source supply counters state

/-! ## The rows of a context -/

structure DataContext where
  state : VuFeedState := {}
  currentRows : String → Option Row := fun _ => none

namespace DataContext

def beginIteration (cx : DataContext) : DataContext :=
  { state := { cx.state with pending := [] }, currentRows := fun _ => none }

def beginMessage (data : DataFeeds) (cx : DataContext) : DataContext :=
  if data.hasOnDemand then
    { cx with currentRows := fun source =>
        if data.isOnDemand source then none else cx.currentRows source }
  else cx

def beginRequest (data : DataFeeds) (cx : DataContext) : DataContext :=
  if data.hasOnDemand then
    beginMessage data { cx with state := { cx.state with pending := [] } }
  else cx

/-- The row of a source, which is taken once. -/
def dataRow (data : DataFeeds) (source : String) (supply : Supply) (counters : Counters)
    (cx : DataContext) : Except NextRowError Row × Counters × DataContext :=
  match cx.currentRows source with
  | some row => (.ok row, counters, cx)
  | none =>
    let (result, counters, state) := data.nextRow source supply counters cx.state
    match result with
    | .ok row => (.ok row, counters,
        { state, currentRows := Function.update cx.currentRows source (some row) })
    | .error e => (.error e, counters, { cx with state })

def reportResult (cx : DataContext) : DataContext :=
  { cx with state := { cx.state with pending := [] } }

def child (cx : DataContext) : DataContext := { state := cx.state.forkForParallel }

end DataContext

/-! ## What the feeds are asked in a run -/

inductive DataEvent
  | beginIteration
  | beginRequest
  | row (source : String)
  | message
  | reportResult
  | fork
  | join
deriving DecidableEq

def FeedCall.event : FeedCall → DataEvent
  | .row source => .row source
  | .message => .message

def Output.dataEvents : Output → List DataEvent
  | .beginIteration => [.beginIteration]
  | .beginRequest _ => [.beginRequest]
  | .feed calls => calls.map FeedCall.event
  | .reportResult _ _ => [.reportResult]
  | .fork => [.fork]
  | .join => [.join]
  | .emit _ | .await _ | .reset => []

def dataEventsAt : Entry → List DataEvent
  | .told o => o.dataEvents
  | _ => []

def dataEvents (t : Transcript) : List DataEvent := t.flatMap dataEventsAt

/-- Where in the tree of contexts the interpreter is: contexts are numbered as they are made, from 0
for that of the virtual user itself. -/
structure Place where
  current : ℕ := 0
  enclosing : List ℕ := []
  next : ℕ := 1

def Place.step (place : Place) : DataEvent → Place
  | .fork => ⟨place.next, place.current :: place.enclosing, place.next + 1⟩
  | .join => match place.enclosing with
    | parent :: enclosing => ⟨parent, enclosing, place.next⟩
    | [] => place
  | _ => place

/-- A reference to a data source: in which context, its result, and whether a row was taken for it. -/
structure Reference where
  context : ℕ
  source : String
  result : Except NextRowError Row
  taken : Bool

/-- The data of a virtual user in the middle of an iteration. -/
structure Feeding where
  counters : Counters := {}
  contexts : ℕ → DataContext := fun _ => {}
  place : Place := {}

namespace Feeding

def current (f : Feeding) : DataContext := f.contexts f.place.current

def setCurrent (f : Feeding) (cx : DataContext) : Feeding :=
  { f with contexts := Function.update f.contexts f.place.current cx }

def advance (f : Feeding) (others : String → ℕ) : Feeding :=
  { f with counters := { f.counters with
      shared := fun source => f.counters.shared source + others source } }

def refer (data : DataFeeds) (source : String) (supply : Supply) (f : Feeding) :
    Feeding × Reference :=
  let (result, counters, cx) := f.current.dataRow data source supply f.counters
  ({ f.setCurrent cx with counters },
    ⟨f.place.current, source, result, (f.current.currentRows source).isNone⟩)

def step (data : DataFeeds) (event : DataEvent) (supply : Supply) (f : Feeding) :
    Feeding × List Reference :=
  let f := f.advance supply.others
  match event with
  | .beginIteration => (f.setCurrent f.current.beginIteration, [])
  | .beginRequest => (f.setCurrent (f.current.beginRequest data), [])
  | .message => (f.setCurrent (f.current.beginMessage data), [])
  | .reportResult => (f.setCurrent f.current.reportResult, [])
  | .row source =>
    let (f, reference) := f.refer data source supply
    (f, [reference])
  | .fork =>
    ({ f with
        contexts := Function.update f.contexts f.place.next f.current.child
        place := f.place.step .fork }, [])
  | .join => ({ f with place := f.place.step .join }, [])

def run (data : DataFeeds) : List (DataEvent × Supply) → Feeding → Feeding × List Reference
  | [], f => (f, [])
  | (event, supply) :: rest, f =>
    let (f, references) := f.step data event supply
    let (f, others) := run data rest f
    (f, references ++ others)

def endIteration (f : Feeding) : Feeding :=
  { f with contexts := fun i => if i = 0 then f.contexts 0 else {}, place := {} }

end Feeding

end Loadr.Flow
