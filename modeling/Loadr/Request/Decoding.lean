import Loadr.Protocols.Grpc
import Loadr.Request.Host
import Loadr.Request.Rows

/-!
# Who reads the body of a gRPC response

Extractors, conditions, the `afterRequest` hook and the plugins that are told the results of their
rows see the response of a request.  `prepare` asks for the body only if it finds a reader of it; a
request that is not decoded must look the same to all of them.  `lazy_decoding_iff` says when it
does.
-/

namespace Loadr.Request

open Loadr.Flow Fallible Grpc List

/-! ## The readers of a response -/

def floatJson : F64 → Json
  | .fin q => .number q
  | _ => .null

def responseToJson (lib : Library) (r : ProtocolResponse) : Json :=
  let headers := r.headers.map fun (name, value) => (name.map Char.toLower, Json.string value)
  .object [
    ("status", .number r.status),
    ("status_text", .string r.statusText),
    ("body", .string (r.bodyText lib)),
    ("headers", .object (headers.foldl (Latest.put Prod.fst) [])),
    ("duration_ms", floatJson r.durationMs),
    ("error", (r.error.map Json.string).getD .null),
    ("url", .string r.url),
    ("protocol", .string r.protocolVersion)]

/-- What a plugin is told about a row. -/
def resultPayload (w : World) (displayName : String) (row : PendingRow) (r : ProtocolResponse) :
    Json :=
  .object [
    ("source", .string row.source),
    ("vu", .number w.vuId),
    ("iteration", .number (w.iteration - 1 : ℕ)),
    ("seq", .number row.seq),
    ("scenario", .string w.scenario),
    ("request", .string displayName),
    ("row", .object (row.row.map fun (column, value) => (column, .string value))),
    ("response", responseToJson w.lib r)]

def evalCondition (lib : Library) (m : Matchers)
    (script : Option (String → Json → Except String Json)) (c : CompiledCondition)
    (r : ProtocolResponse) : ConditionResult :=
  let result := c.evaluate lib m r
  match result.needsJs with
  | none => result
  | some expr =>
    let result := { result with needsJs := none }
    match script with
    | none => result.fail "js condition requires a script engine"
    | some eval => match eval expr (responseToJson lib r) with
      | .ok v => { result with pass := true }.failIf (!v.isTruthy)
          ("js expression evaluated to " ++ lib.print v)
      | .error e => result.fail ("js error: " ++ e)

/-- What the evaluation of a condition sees of a response. -/
def CompiledCondition.view (c : CompiledCondition) (r : ProtocolResponse) : ProtocolResponse :=
  match c.kind with
  | .status .. => { status := r.status }
  | .protobufField .. => { grpcProtobufOutcomes := r.grpcProtobufOutcomes }
  | .duration .. => { durationMs := r.durationMs }
  | .header .. => { headers := r.headers }
  | .bodyContains .. | .bodyMatches .. | .jsonpath .. | .xpath .. | .size .. => { body := r.body }
  | .js _ => r

theorem evaluate_view (lib : Library) (m : Matchers) (c : CompiledCondition) (r : ProtocolResponse) :
    c.evaluate lib m (c.view r) = c.evaluate lib m r := by
  obtain ⟨name, onFailure, kind⟩ := c
  cases kind <;> rfl

section NeedsJs

variable {α : Type} (result : ConditionResult)

@[simp]
theorem needsJs_failIf (failed : Bool) (detail : String) :
    (result.failIf failed detail).needsJs = result.needsJs := by
  cases failed <;> rfl

@[simp]
theorem needsJs_expect (expected : Option α) (holds : α → Bool) (detail : α → String) :
    (result.expect expected holds detail).needsJs = result.needsJs := by
  cases expected with
  | none => rfl
  | some e => exact needsJs_failIf result _ _

theorem needsJs_expectFound (exists_ : Bool) (found : Option α) (missing : String)
    (unexpected : α → String) {check : α → ConditionResult → ConditionResult}
    (hcheck : ∀ v result, (check v result).needsJs = result.needsJs) :
    (expectFound exists_ found missing unexpected check result).needsJs = result.needsJs := by
  cases exists_ <;> cases found
  · rfl
  · rfl
  · rfl
  · exact hcheck _ _

end NeedsJs

theorem needsJs_evaluate (lib : Library) (m : Matchers) (c : CompiledCondition)
    (r : ProtocolResponse) (h : ∀ e, c.kind ≠ .js e) : (c.evaluate lib m r).needsJs = none := by
  obtain ⟨name, onFailure, kind⟩ := c
  cases kind with
  | js e => cases h e rfl
  | status | bodyContains | bodyMatches | duration | size => simp [CompiledCondition.evaluate]
  | jsonpath | header => exact needsJs_expectFound _ _ _ _ _ fun v result => by simp
  | protobufField id =>
    simp only [CompiledCondition.evaluate, CompiledCondition.evaluateProtobuf]
    split <;> rfl
  | xpath =>
    simp only [CompiledCondition.evaluate]
    split
    · rfl
    · exact needsJs_expectFound _ _ _ _ _ fun v result => by simp

/-- A condition sees no more than its view. -/
theorem evalCondition_view (lib : Library) (m : Matchers)
    (script : Option (String → Json → Except String Json)) (c : CompiledCondition)
    (r : ProtocolResponse) :
    evalCondition lib m script c (c.view r) = evalCondition lib m script c r := by
  by_cases h : ∀ e, c.kind ≠ .js e
  · unfold evalCondition
    dsimp only
    rw [evaluate_view, needsJs_evaluate lib m c r h]
  · obtain ⟨e, he⟩ := not_forall_not.1 h
    rw [show c.view r = r by rw [CompiledCondition.view, he]]

/-! ## Who reads the body -/

section Readers

variable (w : World) (req : CompiledRequest)

structure Unobservable (pending : List PendingRow) (r r' : ProtocolResponse) : Prop where
  extract : ∀ e ∈ req.extract, e.extract r = e.extract r'
  conditions : ∀ c ∈ req.assert ++ req.checks, c.view r = c.view r'
  hook : hasAfterRequest w = true → responseToJson w.lib r = responseToJson w.lib r'
  results : ∀ row ∈ pending,
    resultPayload w req.displayName row r = resultPayload w req.displayName row r'

/-- Neither an extractor, nor a condition, nor the hook reads the body. -/
structure Unread : Prop where
  extract : req.extract = []
  conditions : ∀ c ∈ req.assert ++ req.checks, c.readsBody = false
  hook : hasAfterRequest w = false

end Readers

def CompiledCondition.isStatus (c : CompiledCondition) : Bool :=
  match c.kind with
  | .status .. => true
  | _ => false

def CompiledCondition.isProtobufField (c : CompiledCondition) : Bool :=
  match c.kind with
  | .protobufField .. => true
  | _ => false

def checksMessage (req : CompiledRequest) : Bool :=
  (req.assert ++ req.checks).any CompiledCondition.isProtobufField

theorem bindAll_isEmpty (slot : ℕ) (cs : List CompiledCondition) :
    (CompiledCondition.bindAll slot cs).2.isEmpty =
      !(CompiledCondition.bindAll slot cs).1.any CompiledCondition.isProtobufField := by
  induction cs generalizing slot with
  | nil => rfl
  | cons c cs ih =>
    obtain ⟨name, onFailure, kind⟩ := c
    have hother := ih slot
    cases kind with
    | protobufField => simp [CompiledCondition.bindAll, CompiledCondition.bindProtobufCheck,
        CompiledCondition.isProtobufField]
    | _ => simpa [CompiledCondition.bindAll, CompiledCondition.bindProtobufCheck,
        CompiledCondition.isProtobufField] using hother

variable {req : CompiledRequest} {data : DataFeeds} {http : HttpDefaults}

theorem readers_of_compile {around : Surroundings} {step : RequestStep}
    (h : compileRequest around step = .ok req) :
    req.readsResponseBody = readsResponseBody req.extract req.assert req.checks ∧
      req.grpcProtobufChecks.isSome = checksMessage req ∧
      ∀ checks, req.grpcProtobufChecks = some checks → checks ≠ [] := by
  unfold compileRequest at h
  simp only [Fallible.bind_ok_iff] at h
  obtain ⟨body, -, grpc, -, extract, -, assert, -, checks, -, name, -, url, -, headers, -, params, -,
    h⟩ := h
  cases h
  refine ⟨rfl, ?_, fun requested hrequested => ?_⟩
  · have hbound : ∀ n, ∀ bound : List CompiledCondition,
        bound.take n ++ bound.drop (bound.take n).length = bound :=
      fun n bound => prefix_iff_eq_append.1 (bound.take_prefix n)
    simp only [checksMessage, hbound]
    rw [← Bool.not_not (List.any _ _), ← bindAll_isEmpty]
    cases (CompiledCondition.bindAll 0 (assert ++ checks)).2.isEmpty <;> rfl
  · dsimp only at hrequested
    split_ifs at hrequested with hempty
    cases hrequested
    simpa using hempty

/-! ## The rows that wait for a result -/

/-- The source is a plugin that wants to see the results. -/
def Reports (data : DataFeeds) (source : String) : Prop := data.get source = some (.plugin true)

/-- The rows that wait for a result are those of reporting plugins that were looked up. -/
structure Reported (w : World) (s : Session) : Prop where
  looked : ∀ p ∈ s.data.state.pending, ∃ a ∈ s.log, a.source = p.source ∧ Reports w.data p.source
  pending : ∀ a ∈ s.log, Reports w.data a.source → ∃ p ∈ s.data.state.pending, p.source = a.source
  cached : ∀ x, Reports w.data x → s.isCached x = true → ∃ a ∈ s.log, a.source = x

section Pending

theorem pending_memoryFeed (feed : MemoryFeed) (source : String) (supply : Supply)
    (counters : Counters) (state : VuFeedState) :
    (feed.nextRow source supply counters state).2.2.pending = state.pending := by
  unfold MemoryFeed.nextRow
  split
  · rfl
  · dsimp only
    split_ifs
    · cases feed.mode <;> rfl
    · split <;> cases feed.mode <;> rfl

/-- The contexts that a virtual user and its branches come to have. -/
inductive Reached (data : DataFeeds) : DataContext → Prop
  | new : Reached data {}
  | beginIteration {cx : DataContext} : Reached data cx → Reached data cx.beginIteration
  | beginRequest {cx : DataContext} : Reached data cx → Reached data (cx.beginRequest data)
  | beginMessage {cx : DataContext} : Reached data cx → Reached data (cx.beginMessage data)
  | dataRow {cx : DataContext} (source : String) (supply : Supply) (counters : Counters) :
    Reached data cx → Reached data (cx.dataRow data source supply counters).2.2
  | reportResult {cx : DataContext} : Reached data cx → Reached data cx.reportResult
  | child {cx : DataContext} : Reached data cx → Reached data cx.child

theorem Reached.pending_eq_nil {cx : DataContext} (h : Reached data cx)
    (hdata : data.hasOnDemand = false) : cx.state.pending = [] := by
  induction h with
  | new | beginIteration | reportResult | child => rfl
  | beginRequest _ ih => simpa [DataContext.beginRequest, hdata] using ih
  | beginMessage _ ih => simpa [DataContext.beginMessage, hdata] using ih
  | @dataRow cx source supply counters _ ih =>
    have hnext : (data.nextRow source supply counters cx.state).2.2.pending = [] := by
      unfold DataFeeds.nextRow
      cases hfeed : data.get source with
      | none => exact ih
      | some feed =>
        cases feed with
        | memory feed => exact (pending_memoryFeed ..).trans ih
        | plugin reports =>
          obtain ⟨l, l', heq, -⟩ := lookup_eq_some_iff.1 hfeed
          simp [DataFeeds.hasOnDemand, heq, Feed.isOnDemand] at hdata
    unfold DataContext.dataRow
    split
    · exact ih
    · dsimp only
      split <;> exact hnext

variable {w : World} {f : Field} {s t : Session} {source x : String} {row : Row}

theorem pending_of_nextRow {supply : Supply} {counters counters' : Counters}
    {state state' : VuFeedState}
    (h : data.nextRow source supply counters state = (.ok row, counters', state')) :
    (Reports data source ∧ ∃ seq, state'.pending = state.pending ++ [⟨source, seq, row⟩]) ∨
      (¬ Reports data source ∧ state'.pending = state.pending) := by
  unfold DataFeeds.nextRow at h
  unfold Reports
  cases hfeed : data.get source with
  | none =>
    rw [hfeed] at h
    cases congrArg Prod.fst h
  | some feed =>
    rw [hfeed] at h
    cases feed with
    | memory feed =>
      refine .inr ⟨by simp, ?_⟩
      rw [← pending_memoryFeed feed source supply counters state,
        show feed.nextRow source supply counters state = _ from h]
    | plugin reports =>
      dsimp only at h
      split at h
      · obtain rfl : _ = row := by simpa using congrArg Prod.fst h
        obtain rfl := congrArg (·.2.2) h
        cases reports with
        | true => exact .inl ⟨rfl, _, rfl⟩
        | false => exact .inr ⟨by simp, rfl⟩
      · cases congrArg Prod.fst h
      · cases congrArg Prod.fst h

theorem pending_of_dataRow (h : s.dataRow w f source = (.ok row, t)) :
    (∃ p : List PendingRow, t.data.state.pending = s.data.state.pending ++ p ∧
      (∀ r ∈ p, r.source = source ∧ Reports w.data source) ∧
      (Reports w.data source → s.isCached source = true ∨ p ≠ [])) := by
  unfold Session.dataRow at h
  dsimp only at h
  split at h
  · rename_i row' counters data hrow
    obtain rfl := congrArg Prod.snd h
    unfold DataContext.dataRow at hrow
    cases hcached : s.data.currentRows source with
    | some kept =>
      rw [hcached] at hrow
      obtain rfl : s.data = data := congrArg (·.2.2) hrow
      exact ⟨[], (append_nil _).symm, fun _ hr => absurd hr not_mem_nil,
        fun _ => .inl (by rw [Session.isCached, hcached]; rfl)⟩
    | none =>
      rw [hcached] at hrow
      dsimp only at hrow
      rcases hnext : w.data.nextRow source (w.supply s.calls) { s.counters with
        shared := fun source => s.counters.shared source + (w.supply s.calls).others source }
        s.data.state with ⟨_ | taken, counters', state⟩
      · rw [hnext] at hrow
        cases congrArg Prod.fst hrow
      · rw [hnext] at hrow
        obtain rfl := congrArg (·.2.2) hrow
        obtain ⟨hreports, seq, hpending⟩ | ⟨hreports, hpending⟩ := pending_of_nextRow hnext
        · exact ⟨[⟨source, seq, taken⟩], hpending, fun r hr => by
            rw [mem_singleton.1 hr]
            exact ⟨rfl, hreports⟩, fun _ => .inr (cons_ne_nil _ _)⟩
        · exact ⟨[], by rw [append_nil]; exact hpending,
            fun _ hr => absurd hr not_mem_nil, fun h => absurd h hreports⟩
  · cases congrArg Prod.fst h

theorem reported_of_dataRow (h : s.dataRow w f source = (.ok row, t)) (hs : Reported w s) :
    Reported w t := by
  obtain ⟨-, hrows, -, hlog, -⟩ := dataRow_ok h
  obtain ⟨new, hpending, hnew, hreported⟩ := pending_of_dataRow h
  have hold : ∀ a ∈ s.log, a ∈ t.log := fun a ha => by
    rw [hlog]
    exact mem_append_left _ ha
  have hentry : ∃ a ∈ t.log, a.source = source := by
    rw [hlog]
    exact ⟨_, mem_append_right _ (mem_singleton.2 rfl), rfl⟩
  refine ⟨fun p hp => ?_, fun a ha hreports => ?_, fun x hx hcached => ?_⟩
  · rw [hpending] at hp
    rcases mem_append.1 hp with hp | hp
    · obtain ⟨a, ha, hsource⟩ := hs.looked p hp
      exact ⟨a, hold a ha, hsource⟩
    · obtain ⟨rfl, hreports⟩ := hnew p hp
      obtain ⟨a, ha, hsource⟩ := hentry
      exact ⟨a, ha, hsource, hreports⟩
  · have hkept : ∀ x, (∃ p ∈ s.data.state.pending, p.source = x) →
        ∃ p ∈ t.data.state.pending, p.source = x := by
      rintro x ⟨p, hp, hsource⟩
      rw [hpending]
      exact ⟨p, mem_append_left _ hp, hsource⟩
    rw [hlog] at ha
    rcases mem_append.1 ha with ha | ha
    · exact hkept _ (hs.pending a ha hreports)
    · obtain rfl := mem_singleton.1 ha
      rcases hreported hreports with hcached | hne
      · obtain ⟨a, ha, hsource⟩ := hs.cached source hreports hcached
        rw [← hsource]
        exact hkept _ (hs.pending a ha (hsource ▸ hreports))
      · obtain ⟨p, hp⟩ := exists_mem_of_ne_nil new hne
        rw [hpending]
        exact ⟨p, mem_append_right _ hp, (hnew p hp).1⟩
  · by_cases hsource : x = source
    · rw [hsource]
      exact hentry
    · rw [Session.isCached, hrows, Function.update_of_ne hsource] at hcached
      obtain ⟨a, ha, hax⟩ := hs.cached x hx hcached
      exact ⟨a, hold a ha, hax⟩

theorem isOnDemand_of_reports (h : Reports data x) : data.isOnDemand x = true := by
  rw [DataFeeds.isOnDemand, show data.get x = _ from h]
  rfl

theorem isCached_of_beginMessage (h : (s.beginMessage w).isCached x = true) :
    s.isCached x = true := by
  unfold Session.isCached Session.beginMessage DataContext.beginMessage at h
  dsimp only at h
  split_ifs at h
  · dsimp only at h
    split_ifs at h
    · cases h
    · exact h
  · exact h

theorem Reported.beginMessage (hs : Reported w s) : Reported w (s.beginMessage w) := by
  have hpending : (s.beginMessage w).data.state.pending = s.data.state.pending := by
    unfold Session.beginMessage DataContext.beginMessage
    dsimp only
    split_ifs <;> rfl
  refine ⟨?_, ?_, fun x hx hcached => hs.cached x hx (isCached_of_beginMessage hcached)⟩
  · rw [hpending]
    exact hs.looked
  · rw [hpending]
    exact hs.pending

theorem reported_beginRequest (hs : Reached w.data s.data) :
    Reported w (s.beginRequest w) := by
  have hpending : (s.beginRequest w).data.state.pending = [] := by
    unfold Session.beginRequest DataContext.beginRequest DataContext.beginMessage
    dsimp only
    split_ifs with hondemand
    · rfl
    · exact hs.pending_eq_nil (Bool.eq_false_iff.2 hondemand)
  refine ⟨fun p hp => ?_, fun a ha => absurd ha not_mem_nil, fun x hx hcached => ?_⟩
  · rw [hpending] at hp
    cases hp
  · have hclear := congrArg Cache.cached (cacheOf_beginRequest (isOnDemand_of_reports hx) s)
    exact absurd (hcached.symm.trans hclear) (by decide)

theorem exists_renderedIn_iff {relative : Bool} (h : Reads w x http req f) :
    (∃ i, RenderedIn req relative i f) ↔ (f = .base → relative = true) := by
  constructor
  · rintro ⟨i, ⟨-, hf⟩ | ⟨rfl, -⟩ | ⟨-, hf⟩⟩
    · rintro rfl
      simpa [earlyFields] using hf
    · rintro hbase
      cases hbase
    · rintro rfl
      simp [lateFields] at hf
  · intro hbase
    cases f with
    | frame k => exact ⟨k, .inr (.inl ⟨rfl, lt_of_reads_frame h⟩)⟩
    | base => exact ⟨0, .inl ⟨rfl, by simp [earlyFields, hbase rfl]⟩⟩
    | url | params | headers | body | ws => exact ⟨0, .inl ⟨rfl, by simp [earlyFields]⟩⟩
    | metadata | message | socket | sql | plugin | name =>
      exact ⟨max 1 (frames req).length - 1, .inr (.inr ⟨by omega, by simp [lateFields]⟩)⟩

/-- A reporting plugin is asked for a row, by the request or by its hook. -/
def AsksReporting (w : World) (http : HttpDefaults) (req : CompiledRequest) (relative : Bool)
    (hooked : List String) : Prop :=
  ∃ x, Reports w.data x ∧ (x ∈ hooked ∨ ∃ f, Reads w x http req f ∧ (f = .base → relative = true))

theorem sources_lookupRows {rows : List String} (h : lookupRows w f rows s = (true, t)) (x : String) :
    (∃ a ∈ t.log, a.source = x) ↔ (∃ a ∈ s.log, a.source = x) ∨ x ∈ rows := by
  induction rows generalizing s with
  | nil =>
    obtain rfl : s = t := congrArg Prod.snd h
    simp
  | cons source rows ih =>
    rw [lookupRows] at h
    split at h
    · rename_i row u hlook
      rw [ih h, (dataRow_ok hlook).2.2.2.1, mem_cons]
      simp only [mem_append, mem_singleton, or_and_right, exists_or, exists_eq_left, or_assoc]
      rw [@eq_comm _ source x]
    · cases congrArg Prod.fst h

theorem pending_eq_nil_iff {prepared : PreparedRequest} {hooked : List String} {u : Session}
    (hs : Reached w.data s.data)
    (h : Gives (prepare w http req) (s.beginRequest w) prepared t)
    (hhook : lookupRows w f hooked t = (true, u)) :
    u.data.state.pending = [] ↔
      ¬ AsksReporting w http req (relativeUrl w req (s.beginRequest w)) hooked := by
  have hrow : ∀ f source s row t, s.dataRow w f source = (.ok row, t) → Reported w s →
      Reported w t := fun _ _ _ _ _ hrow hs => reported_of_dataRow hrow hs
  have ht : Reported w t := invariant_prepare hrow
    (fun s evals vars hs => ⟨hs.looked, hs.pending, hs.cached⟩)
    (fun s hs => hs.beginMessage) h (reported_beginRequest hs)
  have hu : Reported w u := invariant_lookupRows hrow hhook ht
  have hsources : ∀ x, Reports w.data x → ((∃ a ∈ u.log, a.source = x) ↔
      x ∈ hooked ∨ ∃ f, Reads w x http req f ∧
        (f = .base → relativeUrl w req (s.beginRequest w) = true)) := by
    intro x hx
    rw [sources_lookupRows hhook, or_comm]
    refine or_congr_right ?_
    constructor
    · rintro ⟨a, ha, hsource⟩
      obtain ⟨i, hreads, hin, -⟩ := (log_prepare (isOnDemand_of_reports hx) h).1
        ⟨a, ha, hsource, rfl, rfl⟩
      exact ⟨a.field, hreads, (exists_renderedIn_iff hreads).1 ⟨i, hin⟩⟩
    · rintro ⟨f, hreads, hbase⟩
      obtain ⟨i, hin⟩ := (exists_renderedIn_iff hreads).2 hbase
      obtain ⟨a, ha, hsource, -⟩ := (log_prepare (isOnDemand_of_reports hx) h).2
        ⟨i, hreads, hin, rfl⟩
      exact ⟨a, ha, hsource⟩
  constructor
  · rintro hnil ⟨x, hx, hasked⟩
    obtain ⟨a, ha, rfl⟩ := (hsources x hx).2 hasked
    obtain ⟨p, hp, -⟩ := hu.pending a ha hx
    rw [hnil] at hp
    cases hp
  · intro hnone
    refine eq_nil_iff_forall_not_mem.2 fun p hp => ?_
    obtain ⟨a, ha, hsource, hreports⟩ := hu.looked p hp
    exact hnone ⟨p.source, hreports, (hsources _ hreports).1 ⟨a, ha, hsource⟩⟩

end Pending

/-! ## The gate -/

section Gate

variable {w : World} {around : Surroundings} {step : RequestStep} {req : CompiledRequest}

section

variable (hcompile : compileRequest around step = .ok req)
include hcompile

theorem unread_iff : Unread w req ↔ req.readsResponseBody = false ∧ hasAfterRequest w = false := by
  rw [(readers_of_compile hcompile).1, readsResponseBody]
  constructor
  · rintro ⟨hextract, hconditions, hhook⟩
    refine ⟨?_, hhook⟩
    simp only [hextract, isEmpty_nil, Bool.not_true, Bool.false_or, ← any_append, any_eq_false]
    exact fun c hc => by simp [hconditions c hc]
  · rintro ⟨hreads, hhook⟩
    rw [Bool.or_assoc, ← any_append, Bool.or_eq_false_iff] at hreads
    refine ⟨by simpa using hreads.1, fun c hc => ?_, hhook⟩
    exact Bool.eq_false_iff.2 (any_eq_false.1 hreads.2 c hc)

theorem protobufOnlyResponse_iff :
    protobufOnlyResponse w req = true ↔ Unread w req ∧ checksMessage req = true := by
  rw [unread_iff hcompile, protobufOnlyResponse, (readers_of_compile hcompile).2.1]
  simp only [Bool.and_eq_true, Bool.not_eq_true']
  tauto

theorem discardResponseBody_iff :
    discardResponseBody w req = true ↔
      Unread w req ∧ checksMessage req = false ∧ reportsResults w.data = false := by
  rw [unread_iff hcompile, discardResponseBody, (readers_of_compile hcompile).2.1]
  simp only [Bool.and_eq_true, Bool.not_eq_true']
  tauto

end

theorem grpc_of_prepare {prepared : PreparedRequest} {s t : Session}
    (h : Gives (prepare w http req) s prepared t) (hgrpc : req.grpc.isSome = true) :
    ∃ grpc, prepared.options.grpc = some grpc ∧
      grpc.discardResponseBody = discardResponseBody w req ∧
      grpc.protobufOnlyResponse = protobufOnlyResponse w req ∧
      grpc.protobufChecks = req.grpcProtobufChecks := by
  obtain ⟨-, -, -, -, -, ws, grpc, socket, plugin, -, -, -, -, -, u, u', -, -, -, -, -, -, -, hcall,
    -, -, -, -, hoptions⟩ := gives_prepare h
  obtain ⟨compiled, hcompiled⟩ := Option.isSome_iff_exists.1 hgrpc
  unfold prepareGrpc at hcall
  rw [hcompiled] at hcall
  obtain ⟨messages, u₁, -, hcall⟩ := gives_bind.1 hcall
  obtain ⟨rendered, u₂, -, hcall⟩ := gives_bind.1 hcall
  obtain ⟨rfl, -⟩ := gives_pure.1 hcall
  rw [hoptions]
  exact ⟨_, rfl, rfl, rfl, rfl⟩

theorem not_reports_of_reportsResults (h : reportsResults data = false) (x : String) :
    ¬ Reports data x := by
  intro hx
  obtain ⟨l, l', heq, -⟩ := lookup_eq_some_iff.1 hx
  have hmem : (x, Feed.plugin true) ∈ data.feeds := by
    rw [heq]
    exact mem_append_right l mem_cons_self
  exact absurd (any_eq_false.1 h _ hmem) (by simp)

end Gate

/-! ## Readers that do not see the body -/

section Unread

variable {w : World} {req : CompiledRequest} {r : ProtocolResponse}

theorem Unobservable.rfl {pending : List PendingRow} : Unobservable w req pending r r :=
  ⟨fun _ _ => .refl _, fun _ _ => .refl _, fun _ => .refl _, fun _ _ => .refl _⟩

/-- Only a plugin that is told the result misses the body. -/
theorem unobservable_body_iff (hunread : Unread w req) (pending : List PendingRow)
    {lazy : ProtocolResponse} (hlazy : lazy = { r with body := lazy.body }) :
    Unobservable w req pending lazy r ↔
      pending = [] ∨ w.lib.fromUtf8Lossy lazy.body = w.lib.fromUtf8Lossy r.body := by
  generalize lazy.body = body at hlazy ⊢
  subst hlazy
  constructor
  · intro h
    cases pending with
    | nil => exact .inl (.refl _)
    | cons row rows =>
      have hpayload := h.results row mem_cons_self
      right
      simpa [resultPayload, responseToJson, ProtocolResponse.bodyText] using hpayload
  · intro h
    refine ⟨fun e he => ?_, fun c hc => ?_, fun hhook => ?_, fun row hrow => ?_⟩
    · rw [hunread.extract] at he
      cases he
    · have hreads := hunread.conditions c hc
      unfold CompiledCondition.readsBody at hreads
      unfold CompiledCondition.view
      cases hkind : c.kind <;> simp [hkind] at hreads ⊢
    · rw [hunread.hook] at hhook
      cases hhook
    · rcases h with rfl | h
      · cases hrow
      · simp [resultPayload, responseToJson, ProtocolResponse.bodyText, h]

theorem Unobservable.status {pending : List PendingRow} {r' : ProtocolResponse}
    (h : Unobservable w req pending r r')
    (hstatus : (req.assert ++ req.checks).any CompiledCondition.isStatus = true) :
    r.status = r'.status := by
  obtain ⟨c, hc, hkind⟩ := any_eq_true.1 hstatus
  have hview := h.conditions c hc
  unfold CompiledCondition.isStatus at hkind
  unfold CompiledCondition.view at hview
  split at hkind
  · rename_i hc
    rw [hc] at hview
    simpa using hview
  · cases hkind

/-- Only a condition on the status notices that nothing is decoded. -/
theorem unobservable_status_iff (hunread : Unread w req) (hchecks : checksMessage req = false)
    {r' : ProtocolResponse} (hduration : r.durationMs = r'.durationMs)
    (hheaders : r.headers = r'.headers) : Unobservable w req [] r r' ↔
      ((req.assert ++ req.checks).any CompiledCondition.isStatus = true → r.status = r'.status) := by
  refine ⟨fun h hstatus => h.status hstatus, ?_⟩
  intro hstatus
  refine ⟨fun e he => ?_, fun c hc => ?_, fun hhook => ?_, fun row hrow => by cases hrow⟩
  · rw [hunread.extract] at he
    cases he
  · have hreads := hunread.conditions c hc
    have hmessage := any_eq_false.1 hchecks c hc
    have hsame := fun h => hstatus (any_eq_true.2 ⟨c, hc, h⟩)
    unfold CompiledCondition.readsBody at hreads
    unfold CompiledCondition.isProtobufField at hmessage
    unfold CompiledCondition.isStatus at hsame
    unfold CompiledCondition.view
    cases hkind : c.kind <;> simp_all
  · rw [hunread.hook] at hhook
    cases hhook

end Unread

/-! ## Lazy decoding -/

section Lazy

variable {w : World} {req : CompiledRequest} {formats : Formats} {client : Client}
  {method : GrpcMethod} {sent : PreparedRequest} {grpc : GrpcRequest} {exchange : Exchange}
  {dropped : Option DropMode}

theorem decoded_options (hsent : sent.options.grpc = some grpc) :
    (decoded sent).options.grpc =
      some { grpc with discardResponseBody := false, protobufOnlyResponse := false } := by
  simp [decoded, hsent]

theorem execute_decoded (hsent : sent.options.grpc = some grpc)
    (hdiscard : grpc.discardResponseBody = false) (honly : grpc.protobufOnlyResponse = false) :
    execute w.lib formats client method (decoded sent) exchange =
      execute w.lib formats client method sent exchange := by
  have hgrpc : { grpc with discardResponseBody := false, protobufOnlyResponse := false } = grpc := by
    cases grpc
    cases hdiscard
    cases honly
    rfl
  unfold execute
  rw [decoded_options hsent, hsent, hgrpc]
  rfl

theorem delivered_ok (hdropped : dropped ≠ some .beforeSend) :
    ∃ error, ∀ r, r.error = none → delivered dropped sent (.ok r) = { r with error } := by
  cases dropped with
  | none => exact ⟨none, fun r hr => by cases r; cases hr; rfl⟩
  | some mode =>
    cases mode with
    | beforeSend => cases hdropped rfl
    | afterResponse => exact ⟨_, fun r _ => rfl⟩

/-- With checks of the message alone, the JSON is missing. -/
theorem unobservable_protobufOnly_iff (hunread : Unread w req)
    (hsent : sent.options.grpc = some grpc) (hdiscard : grpc.discardResponseBody = false)
    (honly : grpc.protobufOnlyResponse = true) {checks : List GrpcProtobufFieldCheck}
    (hchecks : grpc.protobufChecks = some checks) (hne : checks ≠ []) (pending : List PendingRow)
    (hprint : ∀ json, w.lib.fromUtf8Lossy (w.lib.toVec json) ≠ w.lib.fromUtf8Lossy []) :
    Unobservable w req pending
      (delivered dropped sent (execute w.lib formats client method sent exchange))
      (delivered dropped sent (execute w.lib formats client method (decoded sent) exchange)) ↔
    (dropped ≠ some .beforeSend → exchange.delivers method checks = true → pending = []) := by
  by_cases hdropped : dropped = some .beforeSend
  · rw [hdropped]
    exact iff_of_true .rfl fun h => absurd rfl h
  have hempty : checks.isEmpty = false := by simpa using hne
  simp only [ne_eq, hdropped, not_false_eq_true, forall_true_left]
  unfold execute
  rw [decoded_options hsent, hsent]
  simp only [hchecks, Option.getD_some, hempty, hdiscard, honly, Bool.and_false]
  cases exchange with
  | unanswered response => exact iff_of_true .rfl fun h => by cases h
  | answered bytesSent elapsedMs reply =>
    cases hresolve : method.resolve checks with
    | error e =>
      have hfails : (Exchange.answered bytesSent elapsedMs reply).delivers method checks = false := by
        rw [Exchange.delivers, hresolve]
        rfl
      exact iff_of_true .rfl fun h => by rw [hfails] at h; cases h
    | ok resolved =>
      obtain ⟨error, hdelivered⟩ := @delivered_ok sent dropped hdropped
      have hdelivers : (Exchange.answered bytesSent elapsedMs reply).delivers method checks =
          reply.delivers := by
        rw [Exchange.delivers, hresolve]
        rfl
      have hok := fun only => hdelivered (respond w.lib formats sent.url only resolved bytesSent
        elapsedMs (invoke client method.serverStreaming false reply)) (error_respond ..)
      refine (iff_of_eq (congrArg₂ _ (hok true) (hok false))).trans ?_
      rw [hdelivers, unobservable_body_iff hunread pending (by rw [respond_protobufOnly])]
      obtain ⟨hreply, m, hbody⟩ | ⟨hreply, hbody⟩ := body_respond w.lib formats client sent.url
        resolved bytesSent elapsedMs method.serverStreaming reply
      · simp [respond_protobufOnly, hreply, hbody, jsonBody, Ne.symm (hprint _)]
      · simp [respond_protobufOnly, hreply, hbody]

/-- Without any decoding, a message that cannot be decoded goes unnoticed. -/
theorem unobservable_discard_iff (hunread : Unread w req) (hmessage : checksMessage req = false)
    (hsent : sent.options.grpc = some grpc) (hdiscard : grpc.discardResponseBody = true)
    (honly : grpc.protobufOnlyResponse = false) (hchecks : grpc.protobufChecks = none) :
    Unobservable w req []
      (delivered dropped sent (execute w.lib formats client method sent exchange))
      (delivered dropped sent (execute w.lib formats client method (decoded sent) exchange)) ↔
    (dropped ≠ some .beforeSend → exchange.hidesFailure = true →
      (req.assert ++ req.checks).any CompiledCondition.isStatus = false) := by
  by_cases hdropped : dropped = some .beforeSend
  · rw [hdropped]
    exact iff_of_true .rfl fun h => absurd rfl h
  simp only [ne_eq, hdropped, not_false_eq_true, forall_true_left]
  unfold execute
  rw [decoded_options hsent, hsent]
  simp only [hchecks, Option.getD_none, isEmpty_nil, hdiscard, honly, Bool.and_true]
  cases exchange with
  | unanswered response => exact iff_of_true .rfl fun h => by cases h
  | answered bytesSent elapsedMs reply =>
    obtain ⟨error, hdelivered⟩ := @delivered_ok sent dropped hdropped
    have hok := fun discard => hdelivered (respond w.lib formats sent.url false [] bytesSent elapsedMs
      (invoke client method.serverStreaming discard reply)) (error_respond ..)
    refine (iff_of_eq (congrArg₂ _ (hok true) (hok false))).trans ?_
    rw [unobservable_status_iff hunread hmessage (by simp) (by simp)]
    change (_ → (respond ..).status = (respond ..).status) ↔ _
    rw [status_skip_eq_iff, Exchange.hidesFailure]
    cases reply.hidesFailure <;> simp

/-- All readers of a response see what they would see if it were always decoded, unless a plugin is
told the result of a request whose checks of the message are the only other readers, or a condition
on the status is to notice that a skipped message cannot be decoded. -/
theorem lazy_decoding_iff {around : Surroundings} {step : RequestStep} {http : HttpDefaults}
    {prepared : PreparedRequest} {f : Field} {hooked : List String} {s t u : Session}
    (hcompile : compileRequest around step = .ok req) (hgrpc : req.grpc.isSome = true)
    (hs : Reached w.data s.data)
    (h : Gives (prepare w http req) (s.beginRequest w) prepared t)
    (hhook : lookupRows w f hooked t = (true, u)) (hsent : sent.options = prepared.options)
    (hprint : ∀ json, w.lib.fromUtf8Lossy (w.lib.toVec json) ≠ w.lib.fromUtf8Lossy []) :
    Unobservable w req u.data.state.pending
      (delivered dropped sent (execute w.lib formats client method sent exchange))
      (delivered dropped sent (execute w.lib formats client method (decoded sent) exchange)) ↔
    (Unread w req → dropped ≠ some .beforeSend →
      (checksMessage req = true →
        exchange.delivers method (req.grpcProtobufChecks.getD []) = true →
          ¬ AsksReporting w http req (relativeUrl w req (s.beginRequest w)) hooked) ∧
      (checksMessage req = false → reportsResults w.data = false → exchange.hidesFailure = true →
        (req.assert ++ req.checks).any CompiledCondition.isStatus = false)) := by
  have hpending := pending_eq_nil_iff hs h hhook
  have honlyIff := @protobufOnlyResponse_iff w around step req hcompile
  have hdiscardIff := @discardResponseBody_iff w around step req hcompile
  obtain ⟨-, hsome, hnonempty⟩ := readers_of_compile hcompile
  obtain ⟨grpc, hoptions, hdiscard, honly, hchecks⟩ := grpc_of_prepare h hgrpc
  rw [← hsent] at hoptions
  by_cases hunread : Unread w req
  · cases hmessage : checksMessage req with
    | true =>
      rw [hmessage] at hsome
      obtain ⟨checks, hsome⟩ := Option.isSome_iff_exists.1 hsome
      have hne := hnonempty checks hsome
      have hkept : discardResponseBody w req = false := by simpa [hmessage] using hdiscardIff
      rw [unobservable_protobufOnly_iff hunread hoptions (hdiscard.trans hkept)
        (honly.trans (honlyIff.2 ⟨hunread, hmessage⟩)) (hchecks.trans hsome) hne _ hprint, hpending,
        hsome]
      simp [hunread]
    | false =>
      have hkept : protobufOnlyResponse w req = false := by simpa [hmessage] using honlyIff
      rw [hmessage, Option.isSome_eq_false_iff, Option.isNone_iff_eq_none] at hsome
      cases hreports : reportsResults w.data with
      | false =>
        have hnil : u.data.state.pending = [] := hpending.2 fun ⟨x, hx, _⟩ =>
          not_reports_of_reportsResults hreports x hx
        rw [hnil, unobservable_discard_iff hunread hmessage hoptions
          (hdiscard.trans (hdiscardIff.2 ⟨hunread, hmessage, hreports⟩)) (honly.trans hkept)
          (hchecks.trans hsome)]
        simp [hunread]
      | true =>
        have hkept' : discardResponseBody w req = false := by simpa [hreports] using hdiscardIff
        rw [execute_decoded hoptions (hdiscard.trans hkept') (honly.trans hkept)]
        exact iff_of_true .rfl fun _ _ => ⟨fun h => (by cases h), fun _ h => (by cases h)⟩
  · have hkept : discardResponseBody w req = false := by simpa [hunread] using hdiscardIff
    have hkept' : protobufOnlyResponse w req = false := by simpa [hunread] using honlyIff
    rw [execute_decoded hoptions (hdiscard.trans hkept) (honly.trans hkept')]
    exact iff_of_true .rfl fun h => absurd h hunread

end Lazy

/-! ## An instance -/

section Instance

def nonceWorld (reports : Bool) : World where
  lib := { noLibrary with
    toVec := fun _ => [123, 125]
    fromUtf8Lossy := fun bytes => String.ofList (bytes.map fun b => Char.ofNat b.toNat) }
  data := ⟨[("nonces", .plugin reports)]⟩
  supply n := .unshuffled (.ok (.row [("nonce", toString n)]))

def payStep (check : ConditionSpec) : RequestStep where
  url := "grpc://pay"
  grpc := some {
    service := "Pay"
    method := "Submit"
    metadata := [("nonce", "$\x7bdata.nonces.nonce\x7d")] }
  checks := [{ name := "accepted", spec := check }]

def payMethod : GrpcMethod where
  serverStreaming := false
  resolve checks := .ok (checks.map fun check => ⟨check.id, ⟨check.field, false⟩, none, check.exists_⟩)

def accepted : DynamicMessage := ⟨2, fun _ => true, fun _ => .i32 0, some (.object [])⟩

/-- A request of the step is prepared, and its answer arrives. -/
structure Paid (reports : Bool) (check : ConditionSpec) where
  req : CompiledRequest
  prepared : PreparedRequest
  session : Session
  compiled : compileRequest noSurroundings (payStep check) = .ok req
  gives : Gives (prepare (nonceWorld reports) {} req) (Session.beginRequest (nonceWorld reports) {})
    prepared session

def inOrder : Client where
  streaming decode reply := reply.frames.map decode ++ (reply.trailer.map Except.error).toList
  unary decode reply := do
    match ← collectStream (reply.frames.map decode ++ (reply.trailer.map Except.error).toList) with
    | [] => throw ⟨.internal, "Missing response message."⟩
    | message :: _ => return message
  collect_streaming decode reply := by
    unfold collectStream
    rw [mapM_append, mapM_map]
    cases reply.trailer with
    | none => simp
    | some status => rfl
  unary_eq _ _ := rfl

def pay (reports : Bool) (check : ConditionSpec) : Option (Paid reports check) :=
  match hcompiled : compileRequest noSurroundings (payStep check) with
  | .error _ => none
  | .ok req =>
    match hgives : (prepare (nonceWorld reports) {} req).run.run
        (Session.beginRequest (nonceWorld reports) {}) with
    | (.ok prepared, session) => some ⟨req, prepared, session, hcompiled, hgives⟩
    | (.error _, _) => none

namespace Paid

variable {reports : Bool} {check : ConditionSpec}

/-- The response to the call, decoded as the request asks for or as a whole. -/
def response (p : Paid reports check) (whole : Bool) (decoded : Except String DynamicMessage) :
    ProtocolResponse :=
  delivered none p.prepared (execute (nonceWorld reports).lib ⟨id, fun _ => ""⟩ inOrder payMethod
    (if whole then Grpc.decoded p.prepared else p.prepared)
    (.answered 7 0 { frames := [⟨2, decoded⟩] }))

def Agrees (p : Paid reports check) (decoded : Except String DynamicMessage) : Prop :=
  Unobservable (nonceWorld reports) p.req p.session.data.state.pending (p.response false decoded)
    (p.response true decoded)

end Paid

/-- A check of the message does without the JSON. -/
theorem lazy_decoding_accepted :
    ∃ p : Paid false (.protobufField "code" none none none),
      (p.response false (.ok accepted)).body = [] ∧
      (p.response true (.ok accepted)).body = [123, 125] ∧ p.Agrees (.ok accepted) := by
  have hpay : (pay false (.protobufField "code" none none none)).map (fun p =>
      ((p.response false (.ok accepted)).body, (p.response true (.ok accepted)).body,
        p.req.grpc.isSome)) = some ([], [123, 125], true) := by decide +kernel
  obtain ⟨p, -, hp⟩ := Option.map_eq_some_iff.1 hpay
  simp only [Prod.mk.injEq] at hp
  have hlazy := (@lazy_decoding_iff (nonceWorld false) p.req ⟨id, fun _ => ""⟩ inOrder payMethod
    p.prepared (.answered 7 0 { frames := [⟨2, .ok accepted⟩] }) none noSurroundings _ {}
    p.prepared .url [] {} p.session p.session p.compiled hp.2.2 .new p.gives rfl rfl
    (fun _ => by simp [nonceWorld, noLibrary])).2 fun _ _ => ⟨fun _ _ => ?_, fun _ _ h => ?_⟩
  · exact ⟨p, hp.1, hp.2.1, hlazy⟩
  · rintro ⟨x, hx, -⟩
    exact not_reports_of_reportsResults (by decide) x hx
  · cases h

/-- A plugin is told the result of a request without the body, and a status condition does not see
that the answer cannot be decoded. -/
theorem body_missing_from_result :
    (∃ p : Paid true (.protobufField "code" none none none),
      (p.response false (.ok accepted)).body = [] ∧
      (p.response true (.ok accepted)).body = [123, 125] ∧ ¬ p.Agrees (.ok accepted)) ∧
    ∃ p : Paid false (.status (some 0) none none),
      (p.response false (.error "truncated")).status = 0 ∧
      (p.response true (.error "truncated")).status = 13 ∧ ¬ p.Agrees (.error "truncated") := by
  constructor
  · have hpay : (pay true (.protobufField "code" none none none)).map (fun p =>
        ((p.response false (.ok accepted)).body, (p.response true (.ok accepted)).body,
          p.session.data.state.pending.length)) = some ([], [123, 125], 1) := by decide +kernel
    obtain ⟨p, -, hp⟩ := Option.map_eq_some_iff.1 hpay
    simp only [Prod.mk.injEq] at hp
    refine ⟨p, hp.1, hp.2.1, fun hagrees => ?_⟩
    obtain ⟨row, hrow⟩ := exists_mem_of_length_pos (hp.2.2 ▸ Nat.one_pos)
    have hpayload := hagrees.results row hrow
    simp only [resultPayload, responseToJson, ProtocolResponse.bodyText, hp.1, hp.2.1] at hpayload
    simp [nonceWorld] at hpayload
  · have hpay : (pay false (.status (some 0) none none)).map (fun p =>
        ((p.response false (.error "truncated")).status,
          (p.response true (.error "truncated")).status,
          (p.req.assert ++ p.req.checks).any CompiledCondition.isStatus)) = some (0, 13, true) := by
      decide +kernel
    obtain ⟨p, -, hp⟩ := Option.map_eq_some_iff.1 hpay
    simp only [Prod.mk.injEq] at hp
    refine ⟨p, hp.1, hp.2.1, fun hagrees => ?_⟩
    have hstatus := hagrees.status hp.2.2
    rw [hp.1, hp.2.1] at hstatus
    cases hstatus

end Instance

end Loadr.Request
