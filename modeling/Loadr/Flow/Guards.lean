import Loadr.Flow.TagCache

/-!
# Guards of request metrics

A request counts as in flight from the time it is sent.  Its metrics are emitted when the response
is recorded, or by the destructor of its guard if the future of the request is dropped before that.
All virtual users and parallel branches share the counter and the registry of tag sets, and their
steps interleave freely.
-/

namespace Loadr.Flow

open List

structure RequestMetricsGuard where
  emitter : RequestMetricEmitter
  request : PreparedRequest
  active : Bool

structure Family where
  tags : TagSet
  metrics : List (Metric × F64)

def RequestMetricsGuard.family (g : RequestMetricsGuard) (response : ProtocolResponse) : Family :=
  ⟨g.emitter.sampleTags (requestTags g.request response),
    requestMetrics g.request.protocol response⟩

/-- What the requests of a run share, the metrics with the number of their request. -/
structure Bus where
  tags : TagCache.State := {}
  requestsInFlight : ℤ := 0
  guards : List RequestMetricsGuard := []
  emitted : List (ℕ × Family) := []

namespace Bus

variable (hash : TagSet → UInt64)

def emitOnce (s : Bus) (i : ℕ) (g : RequestMetricsGuard) (tags : CachedTags)
    (response : ProtocolResponse) : Bus :=
  if !g.active then s
  else
    { s with
      requestsInFlight := s.requestsInFlight - 1
      guards := s.guards.set i { g with active := false }
      emitted := s.emitted ++ [(i, ⟨tags.tags, requestMetrics g.request.protocol response⟩)] }

/-- The virtual user has got these tags from `cached_sample_tags`. -/
def recordCompleted (s : Bus) (i : ℕ) (g : RequestMetricsGuard) (response : ProtocolResponse)
    (tags : CachedTags) : Bus :=
  s.emitOnce i g tags response

/-- The destructor derives the tags from its copy of the emitter and interns them. -/
def dropGuard (s : Bus) (i : ℕ) (g : RequestMetricsGuard) (elapsed : F64) : Bus :=
  let response := cancelledResponse elapsed
  let (tags, tagSets) := TagCache.intern hash s.tags.tagSets
    (g.emitter.sampleTags (requestTags g.request response))
  ({ s with tags := { s.tags with tagSets } }).emitOnce i g tags response

inductive Action
  /-- A virtual user is created, enters or leaves a group, or asks for the tags of a sample. -/
  | tags (a : TagCache.Action)
  | send (vu : ℕ) (request : PreparedRequest)
  | respond (i : ℕ) (response : ProtocolResponse)
  | drop (i : ℕ) (elapsed : F64)

/-- A response is recorded once the virtual user has the tags for it.  It is in the groups then that
it was in when it sent the request, since steps inside of a request do not enter or leave one. -/
def next (s : Bus) : Action → Option Bus
  | .tags a => (TagCache.next hash s.tags a).map fun tags => { s with tags }
  | .send vu request => (s.tags.idle vu).map fun vu =>
    { s with
      requestsInFlight := s.requestsInFlight + 1
      guards := s.guards ++ [⟨vu.toRequestMetricEmitter, request, true⟩] }
  | .respond i response => s.guards[i]?.bind fun g =>
    (s.tags.returned.find? fun r =>
        r.emitter = g.emitter ∧ r.extras = requestTags g.request response).map fun r =>
      s.recordCompleted i g response r.tags
  | .drop i elapsed => s.guards[i]?.map fun g => s.dropGuard hash i g elapsed

def machine : Machine Bus Action where
  init s := s = {}
  next := next hash

/-! ## Every request is accounted for -/

def emittedBy (s : Bus) (i : ℕ) : List Family := (s.emitted.filter (·.1 = i)).map (·.2)

/-- The response that an action records for the request, or that stands for its cancellation. -/
def Action.ends (i : ℕ) : Action → Option ProtocolResponse
  | .respond j response => if j = i then some response else none
  | .drop j elapsed => if j = i then some (cancelledResponse elapsed) else none
  | _ => none

/-- The response of a request is the first one it got. -/
def responded (actions : List Action) (i : ℕ) : Option ProtocolResponse :=
  actions.findSome? (Action.ends i)

/-- The accounts after the actions so far. -/
structure Balanced (actions : List Action) (s : Bus) : Prop where
  tags : s.tags.Ok hash
  inFlight : s.requestsInFlight = s.guards.countP (·.active)
  unsent : ∀ i, s.guards.length ≤ i → s.emittedBy i = [] ∧ responded actions i = none
  once : ∀ (i : ℕ) (g : RequestMetricsGuard), s.guards[i]? = some g →
    s.emittedBy i = ((responded actions i).map g.family).toList ∧
      g.active = (responded actions i).isNone

variable {hash} {s t : Bus} {i : ℕ} {g : RequestMetricsGuard} {actions : List Action} {a : Action}
  {response : ProtocolResponse} {tags : CachedTags}

theorem responded_concat : responded (actions ++ [a]) i = (responded actions i).or (a.ends i) := by
  simp [responded, findSome?_append]

theorem Balanced.concat (h : Balanced hash actions s)
    (ha : ∀ i, responded (actions ++ [a]) i = responded actions i) :
    Balanced hash (actions ++ [a]) s :=
  ⟨h.tags, h.inFlight, fun i => ha i ▸ h.unsent i, fun i => ha i ▸ h.once i⟩

theorem Balanced.concat_of_ends (h : Balanced hash actions s) (ha : ∀ i, a.ends i = none) :
    Balanced hash (actions ++ [a]) s :=
  h.concat fun i => by rw [responded_concat, ha, Option.or_none]

theorem Balanced.emitOnce (h : Balanced hash actions s) (hi : s.guards[i]? = some g)
    (ha : ∀ j, a.ends j = if i = j then some response else none)
    (htags : tags.tags = g.emitter.sampleTags (requestTags g.request response)) :
    Balanced hash (actions ++ [a]) (s.emitOnce i g tags response) := by
  obtain ⟨honce, hactive⟩ := h.once i g hi
  obtain ⟨hlt, hget⟩ := List.getElem?_eq_some_iff.1 hi
  -- the action tells nothing about the other requests
  have hother {j : ℕ} (hj : i ≠ j) : responded (actions ++ [a]) j = responded actions j := by
    rw [responded_concat, ha, if_neg hj, Option.or_none]
  have hself : responded (actions ++ [a]) i = (responded actions i).or (some response) := by
    rw [responded_concat, ha, if_pos rfl]
  cases hended : responded actions i with
  | some first =>
    rw [hended] at honce hactive hself
    have hactive : g.active = false := hactive
    simp only [Bus.emitOnce, hactive, Bool.not_false, if_true]
    refine h.concat fun j => ?_
    by_cases hj : i = j
    · rw [← hj, hself, hended, Option.some_or]
    · exact hother hj
  | none =>
    rw [hended] at honce hactive hself
    have hactive : g.active = true := hactive
    simp only [Bus.emitOnce, hactive, Bool.not_true, Bool.false_eq_true, if_false]
    refine ⟨h.tags, ?_, fun j hj => ?_, fun j g' hj => ?_⟩
    · have hpos : 0 < s.guards.countP (·.active) :=
        countP_pos_iff.2 ⟨g, mem_of_getElem? hi, hactive⟩
      simp only [countP_set hlt, hget, hactive, h.inFlight, if_true, Bool.false_eq_true, if_false]
      omega
    · rw [length_set] at hj
      have hne : i ≠ j := (hlt.trans_le hj).ne
      rw [emittedBy, filter_append, map_append, ← emittedBy, hother hne]
      simpa [hne] using h.unsent j hj
    · rw [emittedBy, filter_append, map_append, ← emittedBy]
      by_cases he : i = j
      · subst he
        rw [getElem?_set_self hlt] at hj
        cases hj
        rw [hself, honce]
        simp [RequestMetricsGuard.family, htags]
      · rw [getElem?_set_ne he] at hj
        simpa [he, hother he] using h.once j g' hj

theorem Balanced.next (h : Balanced hash actions s) (hs : next hash s a = some t) :
    Balanced hash (actions ++ [a]) t := by
  cases a with
  | tags a =>
    obtain ⟨tags, htags, rfl⟩ := Option.map_eq_some_iff.1 hs
    have h := h.concat_of_ends (a := .tags a) fun _ => rfl
    exact ⟨h.tags.next htags, h.inFlight, h.unsent, h.once⟩
  | send vu request =>
    obtain ⟨vu', -, rfl⟩ := Option.map_eq_some_iff.1 hs
    have h := h.concat_of_ends (a := .send vu request) fun _ => rfl
    refine ⟨h.tags, by simp [h.inFlight], fun i hi => h.unsent i ?_, fun i g hi => ?_⟩
    · simp only [length_append] at hi
      omega
    · simp only [getElem?_append] at hi
      split_ifs at hi with hlt
      · exact h.once i g hi
      · obtain rfl := mem_singleton.1 (mem_of_getElem? hi)
        obtain ⟨hnone, hresp⟩ := h.unsent i (not_lt.1 hlt)
        rw [hresp]
        exact ⟨hnone, rfl⟩
  | respond i response =>
    obtain ⟨g, hi, hs⟩ := Option.bind_eq_some_iff.1 hs
    obtain ⟨r, hr, rfl⟩ := Option.map_eq_some_iff.1 hs
    have hkey := find?_some hr
    simp only [Bool.decide_and, Bool.and_eq_true, decide_eq_true_eq] at hkey
    refine h.emitOnce hi (fun _ => rfl) ?_
    rw [h.tags.returned r (mem_of_find?_eq_some hr), hkey.1, hkey.2]
    rfl
  | drop i elapsed =>
    obtain ⟨g, hi, rfl⟩ := Option.map_eq_some_iff.1 hs
    obtain ⟨htags, hsets⟩ := TagCache.intern_spec h.tags.tagSets
      (g.emitter.sampleTags (requestTags g.request (cancelledResponse elapsed)))
    have hinterned : Balanced hash actions { s with tags := { s.tags with tagSets := _ } } :=
      ⟨⟨hsets, h.tags.threads, h.tags.returned⟩, h.inFlight, h.unsent, h.once⟩
    exact hinterned.emitOnce hi (fun _ => rfl) (congrArg CachedTags.tags htags)

/-- After any history of the requests of a run, a request has emitted the metrics of the response
that was recorded or, if its guard was dropped before that, those of its cancellation, once, under
the tags of its sample; the counter is the number of requests for which neither has happened. -/
theorem request_metrics_once (hash : TagSet → UInt64) {actions : List Action} {s : Bus}
    (h : (machine hash).run {} actions = some s) :
    s.requestsInFlight = s.guards.countP (·.active) ∧
    ∀ (i : ℕ) (g : RequestMetricsGuard), s.guards[i]? = some g →
      s.emittedBy i = ((responded actions i).map g.family).toList ∧
        g.active = (responded actions i).isNone := by
  have hinit : Balanced hash [] {} :=
    ⟨⟨fun _ => nofun, fun _ _ => nofun, fun _ => nofun⟩, rfl, fun _ _ => ⟨rfl, rfl⟩, fun _ _ => nofun⟩
  have hbalanced := Machine.run_invariant hinit (fun _ _ _ _ hb hs => hb.next hs) h
  exact ⟨hbalanced.inFlight, hbalanced.once⟩

/-- One request is answered, one is dropped while it is executed, one is still in flight. -/
def threeRequests : List Action :=
  let request : PreparedRequest := ⟨"r", "http", "GET"⟩
  let ok : ProtocolResponse := { protocolVersion := "HTTP/1.1", status := 200 }
  [.tags (.new 0 ⟨∅, ["g"]⟩), .tags (.write 0), .tags (.new 1 ⟨∅, []⟩), .send 0 request,
    .send 1 request, .tags (.call 0 (requestTags request ok)), .drop 1 (.fin 5), .tags (.write 0),
    .respond 0 ok, .drop 0 0, .send 0 request]

theorem request_metrics_once_three : ∃ s, (machine fun _ => 7).run {} threeRequests = some s ∧
    s.requestsInFlight = 1 ∧ s.guards.length = 3 ∧ ∀ (i : ℕ) (g : RequestMetricsGuard),
      s.guards[i]? = some g → s.emittedBy i = ((responded threeRequests i).map g.family).toList := by
  have hsome : (((machine fun _ => 7).run {} threeRequests).map fun s =>
      (s.requestsInFlight, s.guards.length)) = some (1, 3) := by decide +kernel
  obtain ⟨s, hs, he⟩ := Option.map_eq_some_iff.1 hsome
  obtain ⟨hcount, hlen⟩ := Prod.mk.inj he
  exact ⟨s, hs, hcount, hlen, fun i g hi => ((request_metrics_once _ hs).2 i g hi).1⟩

end Bus

end Loadr.Flow
