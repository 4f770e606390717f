import Loadr.Flow.Composition

/-!
# Failure samples of a request

The `http_req_failed` samples of one execution of a request step, against what happened in it.

A request that fails an extraction or an assertion is recorded a second time, and one that is cut
before it is prepared, or whose data source is exhausted, not at all.  All other executions have
exactly one sample.
-/

namespace Loadr.Flow

open Dialogue List

/-! ## Marks and samples of a run -/

inductive Mark
  | prepared
  | exhausted
  | unprepared
  | handled (req : CompiledRequest)
  | unhandled
  | dropped
  | answered (response : ProtocolResponse)
  | unextracted
  | unasserted
  | cut
  /-- Steps around requests: the flag of a failed request is set back, a branch begins or ends. -/
  | reset
  | fork
  | join

def ScenarioProgram.drops (program : ScenarioProgram) (draw : F64) : Bool :=
  (program.faults.getD {}).dropRate.any draw.lt

def marksAt (program : ScenarioProgram) : Entry → List Mark
  | .asked (.prepare _) effect => match Effect.value effect with
    | .ready _ => [.prepared]
    | .dataExhausted => [.exhausted]
    | .other => [.unprepared]
  | .asked (.handled req) handled => match (handled : Bool) with
    | true => [.handled req]
    | false => [.unhandled]
  | .asked .dropDraw draw => if program.drops (Subtype.val draw) then [.dropped] else []
  | .asked (.execute _) response => [.answered response]
  | .asked (.extract _ _) value => match (value : Option Json) with
    | some _ => []
    | none => [.unextracted]
  | .asked (.check _ _) pass => match (pass : Bool) with
    | true => []
    | false => [.unextracted]
  | .asked (.evaluate .assertion _ _) result =>
    if ConditionResult.pass result then [] else [.unasserted]
  | .asked (.script .assertion _) effect =>
    if (Effect.value effect).toOption.any Json.isTruthy then [] else [.unasserted]
  | .cut _ => [.cut]
  | .told .reset => [.reset]
  | .told .fork => [.fork]
  | .told .join => [.join]
  | _ => []

def marks (program : ScenarioProgram) (t : Transcript) : List Mark := t.flatMap (marksAt program)

def Mark.fails : Mark → Bool
  | .prepared | .exhausted | .handled _ | .reset | .fork | .join => false
  | .answered response => response.failed
  | .unprepared | .unhandled | .dropped | .unextracted | .unasserted | .cut => true

def Mark.isHandled : Mark → Bool
  | .handled _ => true
  | _ => false

def Emission.failure : Emission → Option F64
  | .sample s => if s.metric = .httpReqFailed then some s.value else none
  | _ => none

/-- The values of the `http_req_failed` samples of a run. -/
def failureValues (elapsed : F64) (t : Transcript) : List F64 :=
  (emitted elapsed t).filterMap Emission.failure

/-! ## Rules for the marks and samples of every run -/

/-- Every run of the part has marks and failure samples with the property. -/
def Shows {α : Type} (program : ScenarioProgram) (elapsed : F64) (d : Run α)
    (Q : List Mark → List F64 → Option α → Prop) : Prop :=
  d.Always Output.IsAwait fun t r => Q (marks program t) (failureValues elapsed t) r

variable {v : List F64} {m : List Mark} {response : ProtocolResponse} {protocol : String}
  {program : ScenarioProgram} {elapsed : F64}

section Rules

variable {α β : Type} {d : Run α} {Q : List Mark → List F64 → Option α → Prop}

theorem shows_pure {a : α} (h : Q [] [] (some a)) : Shows program elapsed (pure a) Q := h

variable {q : Query} {f : α → Run β} {Q' : List Mark → List F64 → Option β → Prop}

theorem shows_ask {Q : List Mark → List F64 → Option q.Answer → Prop}
    (h : ∀ a, Q (marksAt program (.asked q a)) [] (some a)) : Shows program elapsed (ask q) Q := by
  intro a
  change Q (marks program [.asked q a]) (failureValues elapsed [.asked q a]) (some a)
  simpa [marks, failureValues, emitted, emittedAt] using h a

theorem Shows.bind (hd : Shows program elapsed d Q)
    (hf : ∀ a m v, Q m v (some a) →
      Shows program elapsed (f a) fun m' v' r => Q' (m ++ m') (v ++ v') r)
    (hcut : ∀ m v, Q m v none → Q' m v none) : Shows program elapsed (d >>= f) Q' := by
  refine always_bind.2 (hd.mono fun t r h => ?_)
  cases r with
  | some a =>
    refine (hf a _ _ h).mono fun u s hs => ?_
    simpa [marks, failureValues, emitted] using hs
  | none => exact hcut _ _ h

theorem Shows.mono {Q' : List Mark → List F64 → Option α → Prop} (hd : Shows program elapsed d Q)
    (h : ∀ m v r, Q m v r → Q' m v r) : Shows program elapsed d Q' :=
  Always.mono hd fun _ _ => h _ _ _

/-- Every run of the part gets to its end, with marks, samples and a result like this. -/
abbrev Ends {α : Type} (program : ScenarioProgram) (elapsed : F64) (d : Run α)
    (Q : List Mark → List F64 → α → Prop) : Prop :=
  Shows program elapsed d fun m v r => ∃ a, r = some a ∧ Q m v a

theorem Ends.bind {Q : List Mark → List F64 → α → Prop} (hd : Ends program elapsed d Q)
    (hf : ∀ a m v, Q m v a →
      Shows program elapsed (f a) fun m' v' r => Q' (m ++ m') (v ++ v') r) :
    Shows program elapsed (d >>= f) Q' := by
  refine Shows.bind hd ?_ ?_
  · rintro a m v ⟨_, ⟨⟩, h⟩
    exact hf a m v h
  · rintro m v ⟨_, ⟨⟩, -⟩

theorem shows_ask_bind {f : q.Answer → Run β}
    (h : ∀ a, Shows program elapsed (f a) fun m v r => Q' (marksAt program (.asked q a) ++ m) v r) :
    Shows program elapsed (ask q >>= f) Q' := by
  have hask : Ends program elapsed (ask q) fun m v a => m = marksAt program (.asked q a) ∧ v = [] :=
    shows_ask fun a => ⟨a, rfl, rfl, rfl⟩
  refine hask.bind ?_
  rintro a _ _ ⟨rfl, rfl⟩
  exact h a

/-- The part runs to its end with these marks and samples. -/
abbrev Returns (program : ScenarioProgram) (elapsed : F64) (d : Run α) (m : List Mark)
    (v : List F64) : Prop :=
  Ends program elapsed d fun m' v' _ => m' = m ∧ v' = v

theorem Returns.bind_quiet (hd : Returns program elapsed d [] [])
    (hf : ∀ a, Shows program elapsed (f a) Q') : Shows program elapsed (d >>= f) Q' := by
  refine Ends.bind hd ?_
  rintro a _ _ ⟨rfl, rfl⟩
  exact hf a

theorem returns_pure (a : α) : Returns program elapsed (pure a) [] [] := ⟨a, rfl, rfl, rfl⟩

theorem returns_ask (h : ∀ a, marksAt program (.asked q a) = []) :
    Returns program elapsed (ask q) [] [] :=
  shows_ask fun a => ⟨a, rfl, h a, rfl⟩

theorem returns_tell {o : Output} (h : ¬ o.IsAwait) (hmarks : marksAt program (.told o) = []) :
    Returns program elapsed (tell o) [] (failureValues elapsed [.told o]) :=
  ⟨fun hawait => absurd hawait h, (), rfl, by simpa [marks] using hmarks, rfl⟩

theorem returns_feed {calls : List FeedCall} : Returns program elapsed (tell (.feed calls)) [] [] :=
  returns_tell id rfl

theorem returns_emit {e : Emission} (h : e.failure.toList = v) :
    Returns program elapsed (tell (.emit [e])) [] v := by
  subst h
  have hvalues : failureValues elapsed [.told (.emit [e])] = e.failure.toList := by
    simp only [failureValues, emitted, emittedAt, flatMap_cons, flatMap_nil, append_nil]
    cases h : e.failure <;> simp [h]
  exact hvalues ▸ returns_tell id rfl

theorem Returns.bind {m' : List Mark} {v' : List F64} (hd : Returns program elapsed d m v)
    (hf : ∀ a, Returns program elapsed (f a) m' v') :
    Returns program elapsed (d >>= f) (m ++ m') (v ++ v') := by
  refine Ends.bind hd ?_
  rintro a _ _ ⟨rfl, rfl⟩
  exact (hf a).mono fun _ _ _ ⟨b, hr, hm, hv⟩ => ⟨b, hr, by rw [hm], by rw [hv]⟩

end Rules

/-! ## Parts that leave no mark -/

section Quiet

variable {script : Option Script} {vu : VuContext}

/-- The part runs to its end without a mark or sample, and leaves the flag alone. -/
abbrev Keeps {α : Type} (program : ScenarioProgram) (elapsed : F64) (vu : VuContext)
    (view : α → VuContext) (d : Run α) : Prop :=
  Ends program elapsed d fun m v a =>
    (m = [] ∧ v = []) ∧ (view a).lastRequestFailed = vu.lastRequestFailed

theorem Keeps.returns {α : Type} {view : α → VuContext} {d : Run α}
    (h : Keeps program elapsed vu view d) : Returns program elapsed d [] [] :=
  h.mono fun _ _ _ ⟨a, hr, hquiet, _⟩ => ⟨a, hr, hquiet⟩

theorem keeps_runScript {site : Site} (hsite : site ≠ .assertion) (engine : Script)
    (invocation : ScriptInvocation) :
    Keeps program elapsed vu Prod.snd (runScript site engine invocation vu) := by
  have hmarks (a : (Query.script site invocation).Answer) :
      marksAt program (.asked (.script site invocation) a) = [] := by
    cases site <;> first | rfl | cases hsite rfl
  refine (returns_ask hmarks).bind_quiet fun effect => ?_
  exact returns_feed.bind_quiet fun _ => shows_pure ⟨_, rfl, ⟨rfl, rfl⟩, rfl⟩

theorem keeps_callHook {site : Site} (hsite : site ≠ .assertion) (function : String) :
    Keeps program elapsed vu Prod.snd (callHook site script function vu) := by
  unfold callHook
  split
  · split
    · refine (keeps_runScript hsite _ _).bind ?_
      rintro a _ _ ⟨⟨rfl, rfl⟩, hflag⟩
      exact shows_pure ⟨_, rfl, ⟨rfl, rfl⟩, hflag⟩
    · exact shows_pure ⟨_, rfl, ⟨rfl, rfl⟩, rfl⟩
  · exact shows_pure ⟨_, rfl, ⟨rfl, rfl⟩, rfl⟩

theorem returns_runChecks (response : ProtocolResponse) (cs : List CompiledCondition) :
    Returns program elapsed (runChecks script response cs vu) [] [] := by
  induction cs generalizing vu with
  | nil => exact returns_pure _
  | cons condition cs ih =>
    have hcondition : Returns program elapsed (evalCondition .check script condition response vu)
        [] [] := by
      unfold evalCondition
      split
      · exact (keeps_runScript (by decide) _ _).returns.bind fun _ => returns_pure _
      · exact returns_pure _
      · exact (returns_ask fun _ => rfl).bind fun _ => returns_pure _
    refine hcondition.bind fun ⟨result, vu⟩ => ?_
    have hsample : Returns program elapsed
        (tell (.emit [conditionSample vu condition.name result])) [] [] := by
      refine returns_emit ?_
      unfold conditionSample
      split <;> rfl
    exact hsample.bind fun _ => ih

theorem returns_noteFault (kind : String) : Returns program elapsed (noteFault vu kind) [] [] :=
  returns_emit rfl

/-- What stands before the preparation runs to its end, or the iteration is dropped there. -/
def Waits {α : Type} (program : ScenarioProgram) (elapsed : F64) (d : Run α) : Prop :=
  Shows program elapsed d fun m v r => v = [] ∧ m = if r.isSome then [] else [.cut]

theorem waits_pause : Waits program elapsed (pause vu) := ⟨fun _ => ⟨rfl, rfl⟩, rfl, rfl⟩

theorem Returns.waits {α : Type} {d : Run α} (h : Returns program elapsed d [] []) :
    Waits program elapsed d :=
  h.mono fun m v r ⟨_, hr, hm, hv⟩ => ⟨hv, by simp [hm, hr]⟩

theorem waits_pauseIf (b : Bool) : Waits program elapsed (pauseIf b vu) := by
  cases b with
  | true => exact waits_pause
  | false => exact (returns_pure _).waits

theorem waits_acquire : Waits program elapsed (acquire program vu) := by
  unfold acquire
  split
  · exact (returns_ask fun _ => rfl).bind_quiet fun _ => waits_pauseIf _
  · exact (returns_pure _).waits

theorem waits_injectLatency : Waits program elapsed (injectLatency program vu) := by
  unfold injectLatency
  split
  · refine (returns_ask fun _ => rfl).bind_quiet fun jitter => ?_
    split
    · exact (returns_pure _).waits
    · exact (returns_noteFault _).bind_quiet fun _ => waits_pause
  · exact (returns_pure _).waits

end Quiet

/-! ## Extraction and assertions -/

section Response

variable {script : Option Script} {vu : VuContext}

theorem shows_runExtract (prepared : String) (response : ProtocolResponse)
    (es : List CompiledExtractor) (c : Checked) :
    Ends program elapsed (runExtract prepared response es c) fun m v c' => ∃ n,
      m = List.replicate n .unextracted ∧ v = [] ∧ c'.failed = (c.failed || decide (0 < n)) := by
  induction es generalizing c with
  | nil => exact ⟨c, rfl, 0, rfl, rfl, by simp⟩
  | cons e es ih =>
    -- What one more failed extractor adds to the rest.
    have hone {c₁ : Checked} (hc : c₁.failed = true) :
        Ends program elapsed (runExtract prepared response es c₁) fun m v c' => ∃ n,
          .unextracted :: m = List.replicate n .unextracted ∧ v = [] ∧
            c'.failed = (c.failed || decide (0 < n)) := by
      refine (ih c₁).mono ?_
      rintro _ _ _ ⟨c', rfl, n, rfl, rfl, hfailed⟩
      exact ⟨c', rfl, n + 1, rfl, rfl, by simp [hfailed, hc]⟩
    refine shows_ask_bind fun extracted => ?_
    cases extracted with
    | none => exact hone rfl
    | some value =>
      simp only
      cases e.check with
      | none => exact ih _
      | some onFailure =>
        refine shows_ask_bind fun pass => ?_
        refine Returns.bind_quiet (returns_emit rfl) fun _ => ?_
        cases pass with
        | true => exact ih _
        | false => exact hone rfl

/-- A script condition fails without an engine. -/
def unscripted (script : Option Script) (cs : List CompiledCondition) : Bool :=
  script.isNone && cs.any (·.js.isSome)

def requestFailed (script : Option Script) (req : CompiledRequest) (m : List Mark) : Bool :=
  m.any Mark.fails || (m.any Mark.isHandled && unscripted script req.assert)

theorem shows_evalCondition (condition : CompiledCondition) (response : ProtocolResponse) :
    Ends program elapsed (evalCondition .assertion script condition response vu) fun m v a =>
      ∃ n, m = List.replicate n .unasserted ∧ v = [] ∧
        (!a.1.pass) = (decide (0 < n) || unscripted script [condition]) := by
  unfold evalCondition
  split
  · rename_i expr engine _
    have hscript : Ends program elapsed (runScript .assertion engine (.eval expr) vu) fun m v a =>
        v = [] ∧ m = if a.1.toOption.any Json.isTruthy then [] else [.unasserted] := by
      refine shows_ask_bind fun effect => ?_
      refine returns_feed.bind_quiet fun _ => ?_
      exact shows_pure ⟨_, rfl, rfl, by simp [marksAt]⟩
    refine hscript.bind ?_
    rintro ⟨value, vu⟩ _ _ ⟨rfl, rfl⟩
    cases hvalue : value.toOption.any Json.isTruthy with
    | true => exact shows_pure ⟨_, rfl, 0, by simp, rfl, by simp [unscripted, hvalue]⟩
    | false => exact shows_pure ⟨_, rfl, 1, by simp, rfl, by simp [hvalue]⟩
  · rename_i h
    exact shows_pure ⟨_, rfl, 0, rfl, rfl, by simp [unscripted, h]⟩
  · rename_i h
    refine shows_ask_bind fun result => ?_
    cases hpass : ConditionResult.pass result with
    | true => exact shows_pure ⟨_, rfl, 0, by simp [marksAt, hpass], rfl,
        by simp [unscripted, h, hpass]⟩
    | false => exact shows_pure ⟨_, rfl, 1, by simp [marksAt, hpass], rfl, by simp [hpass]⟩

theorem shows_runAssert (prepared : String) (response : ProtocolResponse)
    (cs : List CompiledCondition) (c : Checked) :
    Ends program elapsed (runAssert script prepared response cs c) fun m v c' => ∃ n,
      m = List.replicate n .unasserted ∧ v = [] ∧
        c'.failed = (c.failed || decide (0 < n) || unscripted script cs) := by
  induction cs generalizing c with
  | nil => exact shows_pure ⟨c, rfl, 0, rfl, rfl, by simp [unscripted]⟩
  | cons condition cs ih =>
    have hsplit : unscripted script (condition :: cs) =
        (unscripted script [condition] || unscripted script cs) := by
      cases script <;> simp [unscripted]
    refine (shows_evalCondition condition response).bind ?_
    rintro ⟨result, vu⟩ _ _ ⟨n, rfl, rfl, hpass⟩
    -- The rest starts from an accumulator that has failed if this assertion did.
    have hrest {c₁ : Checked} (hc : c₁.failed = (c.failed || !result.pass)) :
        Ends program elapsed (runAssert script prepared response cs c₁) fun m v c' => ∃ k,
          List.replicate n .unasserted ++ m = List.replicate k .unasserted ∧
            [] ++ v = [] ∧
            c'.failed = (c.failed || decide (0 < k) || unscripted script (condition :: cs)) := by
      refine (ih c₁).mono ?_
      rintro _ _ _ ⟨c', rfl, n', rfl, rfl, hfailed⟩
      refine ⟨c', rfl, n + n', replicate_append_replicate, rfl, ?_⟩
      simp only [hfailed, hc, hpass, hsplit, Nat.add_pos_iff_pos_or_pos, Bool.decide_or]
      ac_rfl
    simp only
    split
    · rename_i h
      exact hrest (by simp [h])
    · rename_i h
      exact hrest (by simp [h, Checked.fail])

/-! ## Sending -/

/-- What the guard records of a response: a session fails by its connection only. -/
def recordedFailure (protocol : String) (response : ProtocolResponse) : Bool :=
  if protocol = "ws" then response.error.isSome else response.failed

theorem failure_requestMetrics (groups : List String) (request : PreparedRequest)
    (response : ProtocolResponse) :
    (emitRequestMetrics groups request response ++ [Emission.endRequest]).filterMap
      Emission.failure = [rateValue (recordedFailure request.protocol response)] := by
  have hend : [Emission.endRequest].filterMap Emission.failure = [] := rfl
  rw [filterMap_append, hend, append_nil]
  simp only [emitRequestMetrics, filterMap_map, Function.comp_def, Emission.failure]
  unfold requestMetrics recordedFailure
  simp only
  split
  · rename_i h
    have hws : request.protocol ≠ "ws" := by rcases h with h | h <;> simp [h]
    split <;> simp
  · split
    · rename_i h
      simp [h]
    · split
      · simp
      · simp

theorem shows_dropFault :
    Ends program elapsed (dropFault program) fun m v mode => v = [] ∧
      m = (mode.map fun _ => .dropped).toList := by
  unfold dropFault
  cases hrate : (program.faults.getD {}).dropRate with
  | none => exact shows_pure ⟨none, rfl, rfl, rfl⟩
  | some rate =>
    have hdecision : Ends program elapsed (faultDropDecision rate) fun m v dropped =>
        v = [] ∧ m = if dropped then [.dropped] else [] := by
      unfold faultDropDecision
      split
      · refine shows_ask_bind fun draw => ?_
        exact shows_pure ⟨_, rfl, rfl, by simp [marksAt, ScenarioProgram.drops, hrate]⟩
      · exact shows_pure ⟨_, rfl, rfl, rfl⟩
    refine hdecision.bind ?_
    rintro dropped _ _ ⟨rfl, rfl⟩
    cases dropped with
    | true | false => exact shows_pure ⟨_, rfl, rfl, rfl⟩

/-- The marks and the sample of a request that has a handler: the request is dropped before it is
sent or after it is answered, the iteration is dropped while it waits for the answer, or the answer
is recorded. -/
inductive Sent (protocol : String) : List Mark → List F64 → Option ProtocolResponse → Prop
  | unsent {response : ProtocolResponse} (h : response.failed = true) :
      Sent protocol [.dropped] [.fin 1] (some response)
  | discarded (response : ProtocolResponse) {response' : ProtocolResponse}
      (h : response'.failed = true) :
      Sent protocol [.dropped, .answered response] [.fin 1] (some response')
  | cut {m : List Mark} (h : m = [] ∨ m = [.dropped]) : Sent protocol (m ++ [.cut]) [.fin 1] none
  | answered (response : ProtocolResponse) :
      Sent protocol [.answered response] [rateValue (recordedFailure protocol response)]
        (some response)

theorem recordedFailure_of_error (protocol : String) {error : String}
    (h : response.error = some error) : recordedFailure protocol response = true := by
  unfold recordedFailure
  split <;> simp [ProtocolResponse.failed, h]

theorem shows_execute (req : CompiledRequest) (prepared : PreparedRequest) :
    Shows program elapsed (exchange.execute req prepared vu) fun m v r => match r with
      | some response => m = [.answered response] ∧ v = []
      | none => m = [.cut] ∧ v = [.fin 1] := by
  refine ⟨fun _ => ⟨rfl, ?_⟩, fun response => ⟨rfl, rfl⟩⟩
  have h := failure_requestMetrics vu.groups prepared (cancelledResponse elapsed)
  rw [recordedFailure_of_error _ rfl] at h
  simpa [failureValues, emitted, emittedAt, rateValue] using h

theorem shows_send (req : CompiledRequest) (prepared : PreparedRequest) :
    Shows program elapsed (send program req prepared vu) (Sent prepared.protocol) := by
  have hrecord (response : ProtocolResponse) : Shows program elapsed
      (do
        tell (.emit (emitRequestMetrics vu.groups prepared response ++ [.endRequest]))
        return response) fun m v r => m = [] ∧ r = some response ∧
          v = [rateValue (recordedFailure prepared.protocol response)] := by
    refine ⟨fun h => absurd h id, rfl, rfl, ?_⟩
    simpa [failureValues, emitted, emittedAt] using
      failure_requestMetrics vu.groups prepared response
  refine shows_dropFault.bind ?_
  rintro dropped _ _ ⟨rfl, rfl⟩
  refine Returns.bind_quiet (returns_emit rfl) fun _ => ?_
  match dropped with
  | some .beforeSend =>
    have hunsent : Ends program elapsed (exchange (some .beforeSend) req prepared vu)
        fun m v response => m = [] ∧ v = [] ∧ response = { error := some faultDropError } :=
      (returns_noteFault "drop").bind_quiet fun _ => shows_pure ⟨_, rfl, rfl, rfl, rfl⟩
    refine hunsent.bind ?_
    rintro response _ _ ⟨rfl, rfl, rfl⟩
    refine (hrecord _).mono ?_
    rintro _ _ _ ⟨rfl, rfl, rfl⟩
    rw [recordedFailure_of_error _ rfl]
    exact .unsent rfl
  | some .afterResponse =>
    have hdiscarded : Shows program elapsed (exchange (some .afterResponse) req prepared vu)
        fun m v r => match r with
          | some response => v = [] ∧ response.error = some faultDropResponseError ∧
              ∃ original, m = [.answered original]
          | none => m = [.cut] ∧ v = [.fin 1] := by
      refine (shows_execute req prepared).bind ?_ fun _ _ h => h
      rintro response _ _ ⟨rfl, rfl⟩
      exact (returns_noteFault "drop").bind_quiet fun _ => shows_pure ⟨rfl, rfl, response, rfl⟩
    refine hdiscarded.bind ?_ ?_
    · rintro response _ _ ⟨rfl, herror, original, rfl⟩
      refine (hrecord response).mono ?_
      rintro _ _ _ ⟨rfl, rfl, rfl⟩
      rw [recordedFailure_of_error _ herror]
      exact .discarded original (by simp [ProtocolResponse.failed, herror])
    · rintro _ _ ⟨rfl, rfl⟩
      exact .cut (.inr rfl)
  | none =>
    refine (shows_execute req prepared).bind ?_ ?_
    · rintro response _ _ ⟨rfl, rfl⟩
      refine (hrecord response).mono ?_
      rintro _ _ _ ⟨rfl, rfl, rfl⟩
      exact .answered response
    · rintro _ _ ⟨rfl, rfl⟩
      exact .cut (.inl rfl)

/-! ## A whole request -/

theorem shows_emitIf (b : Bool) (vu : VuContext) (tags : List (String × String)) :
    Returns program elapsed (emitIf b (failureSample vu tags)) [] (if b then [.fin 1] else []) := by
  cases b with
  | true => exact returns_emit rfl
  | false => exact returns_pure _

theorem shows_conclude (req : CompiledRequest) (name : String) (response : ProtocolResponse) :
    Ends program elapsed (conclude script req name response vu) fun m v x =>
      ∃ n k, m = List.replicate n .unextracted ++ List.replicate k .unasserted ∧
        v = (if 0 < n then [.fin 1] else []) ++
          (if 0 < k ∨ unscripted script req.assert = true then [.fin 1] else []) ∧
        x.2.1.lastRequestFailed =
          (response.failed || m.any Mark.fails || unscripted script req.assert) := by
  refine (shows_runExtract name response req.extract _).bind ?_
  rintro extracted _ _ ⟨n, rfl, rfl, hextracted⟩
  refine Ends.bind (shows_emitIf _ _ _) ?_
  rintro _ _ _ ⟨rfl, rfl⟩
  refine Returns.bind_quiet (returns_tell id rfl) fun _ => ?_
  refine (keeps_callHook (by decide) _).returns.bind_quiet fun hook => ?_
  refine (shows_runAssert name response req.assert _).bind ?_
  rintro asserted _ _ ⟨k, rfl, rfl, hasserted⟩
  refine Ends.bind (shows_emitIf _ _ _) ?_
  rintro _ _ _ ⟨rfl, rfl⟩
  refine (returns_runChecks response req.checks).bind_quiet fun vu => ?_
  refine shows_pure ⟨_, rfl, n, k, by simp, ?_, ?_⟩
  · simp [hextracted, hasserted]
  · simp only [hextracted, hasserted, nil_append, append_nil, any_append, any_replicate, Mark.fails]
    cases response.failed <;> cases n <;> cases k <;> simp

/-- The marks and samples of an execution of a request step. -/
inductive Settled (script : Option Script) (req : CompiledRequest) : List Mark → List F64 → Prop
  | early : Settled script req [.cut] []
  | exhausted : Settled script req [.exhausted] []
  | unprepared : Settled script req [.unprepared] [.fin 1]
  | unhandled : Settled script req [.prepared, .unhandled] [.fin 1]
  | cut {m : List Mark} {v : List F64} (h : Sent req.protocol m v none) :
      Settled script req (.prepared :: .handled req :: m) v
  | concluded {m : List Mark} {v : List F64} {response : ProtocolResponse}
      (h : Sent req.protocol m v (some response)) (n k : ℕ) :
      Settled script req
        (.prepared :: .handled req :: m ++
          (List.replicate n .unextracted ++ List.replicate k .unasserted))
        (v ++ ((if 0 < n then [.fin 1] else []) ++
          if 0 < k ∨ unscripted script req.assert = true then [.fin 1] else []))

theorem protocol_applyRequestOverrides (prepared : PreparedRequest) (updated : Json) :
    (applyRequestOverrides prepared updated).protocol = prepared.protocol := by
  unfold applyRequestOverrides
  split <;> rfl

theorem Waits.bind {α β : Type} {d : Run α} {f : α → Run β}
    {Q : List Mark → List F64 → Option β → Prop} (hd : Waits program elapsed d)
    (hcut : Q [.cut] [] none) (hf : ∀ a, Shows program elapsed (f a) Q) :
    Shows program elapsed (d >>= f) Q := by
  refine Shows.bind hd ?_ ?_
  · rintro a _ _ ⟨rfl, rfl⟩
    exact hf a
  · rintro _ _ ⟨rfl, rfl⟩
    exact hcut

/-- A request that is concluded leaves in the flag whether it failed, one that ends before that
leaves the flag alone. -/
def Flagged (script : Option Script) (req : CompiledRequest) (before : Bool) (m : List Mark)
    (after : Bool) : Prop :=
  .cut ∉ m ∧ after = if m.any Mark.isHandled then requestFailed script req m else before

theorem Settled.flagged_concluded {m' : List Mark} {flag : Bool}
    (h : Sent protocol m v (some response)) (req : CompiledRequest) (before : Bool) (n k : ℕ)
    (hm : m' = List.replicate n .unextracted ++ List.replicate k .unasserted)
    (hflag : flag = (response.failed || m'.any Mark.fails || unscripted script req.assert)) :
    Flagged script req before (.prepared :: .handled req :: m ++ m') flag := by
  subst hm
  constructor
  · cases h <;> simp
  · have hsent : m.any Mark.fails = response.failed := by
      cases h <;> simp_all [Mark.fails]
    rw [hflag]
    simp [requestFailed, Mark.isHandled, hsent, Mark.fails]

theorem shows_runRequest (program : ScenarioProgram) (elapsed : F64) (script : Option Script)
    (req : CompiledRequest) (vu : VuContext) :
    Shows program elapsed (runRequest program script req vu) fun m v r =>
      Settled script req m v ∧
        ∀ x ∈ r, Flagged script req vu.lastRequestFailed m x.2.1.lastRequestFailed := by
  refine waits_acquire.bind ⟨.early, nofun⟩ fun _ => ?_
  refine waits_injectLatency.bind ⟨.early, nofun⟩ fun _ => ?_
  refine Returns.bind_quiet (returns_tell id rfl) fun _ => ?_
  have hprepare : Ends program elapsed (prepare script req vu) fun m v a =>
      a.2.lastRequestFailed = vu.lastRequestFailed ∧ v = [] ∧ m = match a.1 with
        | .ready _ => [.prepared]
        | .dataExhausted => [.exhausted]
        | .other => [.unprepared] := by
    refine shows_ask_bind fun effect => ?_
    refine returns_feed.bind_quiet fun _ => ?_
    exact shows_pure ⟨_, rfl, by cases script <;> rfl, rfl, by simp [marksAt]⟩
  refine hprepare.bind ?_
  rintro ⟨prepared, vu'⟩ _ _ ⟨hvu, rfl, rfl⟩
  cases prepared with
  | dataExhausted =>
    refine shows_pure ⟨.exhausted, ?_⟩
    rintro _ ⟨⟩
    exact ⟨by simp, hvu⟩
  | other =>
    refine Ends.bind (returns_emit rfl) ?_
    rintro _ _ _ ⟨rfl, rfl⟩
    refine shows_pure ⟨.unprepared, ?_⟩
    rintro _ ⟨⟩
    exact ⟨by simp, hvu⟩
  | ready name =>
    refine (keeps_callHook (by decide) _).bind ?_
    rintro ⟨updated, vu''⟩ _ _ ⟨⟨rfl, rfl⟩, hhook⟩
    refine shows_ask_bind fun handled => ?_
    cases handled with
    | false =>
      refine Ends.bind (returns_emit rfl) ?_
      rintro _ _ _ ⟨rfl, rfl⟩
      refine shows_pure ⟨.unhandled, ?_⟩
      rintro _ ⟨⟩
      exact ⟨by simp [marksAt], hhook.trans hvu⟩
    | true =>
      have hsend (prepared : PreparedRequest) (hprotocol : prepared.protocol = req.protocol) :
          Shows program elapsed (send program req prepared vu'') (Sent req.protocol) :=
        hprotocol ▸ shows_send req prepared
      refine (hsend _ (protocol_applyRequestOverrides _ _)).bind ?_ fun _ _ h => ⟨.cut h, nofun⟩
      intro response m v h
      refine (shows_conclude req name response).mono ?_
      rintro m' _ _ ⟨x, rfl, n, k, hm, rfl, hflag⟩
      refine ⟨hm ▸ .concluded h n k, ?_⟩
      rintro _ ⟨⟩
      exact Settled.flagged_concluded h req _ n k hm hflag

end Response

/-! ## Executions -/

/-- The sample of the guard is the only one of the request, and says what becomes of it. -/
structure Regular (script : Option Script) (req : CompiledRequest) (m : List Mark) : Prop where
  rows : .exhausted ∉ m
  prepared : .cut ∈ m → .prepared ∈ m
  extraction : .unextracted ∉ m
  assertion : .unasserted ∉ m
  engine : unscripted script req.assert = true → .handled req ∈ m → .cut ∈ m
  /-- A session whose status is a failure has an error. -/
  session : req.protocol = "ws" → .dropped ∉ m → ∀ response, .answered response ∈ m →
    response.failed = true → response.error.isSome = true

theorem one_ne_zero : F64.fin 1 ≠ 0 := by decide

theorem rateValue_ne_zero {b : Bool} : rateValue b ≠ 0 ↔ b = true := by
  cases b <;> decide

def Counted (failed : Bool) (v : List F64) : Prop := ∃ x, v = [x] ∧ (x ≠ 0 ↔ failed = true)

theorem counted_singleton {failed : Bool} {x : F64} :
    Counted failed [x] ↔ (x ≠ 0 ↔ failed = true) := by
  simp [Counted]

theorem not_counted_nil {failed : Bool} : ¬ Counted failed [] := by
  simp [Counted]

theorem recordedFailure_eq_failed_iff :
    recordedFailure protocol response = response.failed ↔
      (protocol = "ws" → response.failed = true → response.error.isSome = true) := by
  have herror : response.error.isSome = true → response.failed = true := by
    cases h : response.error <;> simp [ProtocolResponse.failed, h]
  unfold recordedFailure
  split
  · rename_i h
    cases hfailed : response.failed <;> simp_all
  · rename_i h
    simp [h]

theorem Sent.exists_singleton {r : Option ProtocolResponse} (h : Sent protocol m v r) :
    ∃ x, v = [x] := by
  cases h <;> exact ⟨_, rfl⟩

theorem Sent.cut_notMem (h : Sent protocol m v (some response)) : .cut ∉ m := by
  cases h <;> simp

theorem counted_iff_regular {script : Option Script} {req : CompiledRequest}
    (h : Settled script req m v) :
    Counted (requestFailed script req m) v ↔ Regular script req m := by
  cases h with
  | early =>
    refine iff_of_false not_counted_nil fun h => ?_
    simpa using h.prepared (by simp)
  | exhausted => exact iff_of_false not_counted_nil fun h => h.rows (by simp)
  | unprepared | unhandled =>
    refine iff_of_true (counted_singleton.2 (by simp [requestFailed, Mark.fails, one_ne_zero])) ?_
    constructor <;> simp
  | cut h =>
    cases h with
    | cut h =>
      refine iff_of_true (counted_singleton.2 (by simp [requestFailed, Mark.fails, one_ne_zero])) ?_
      rcases h with rfl | rfl <;> constructor <;> simp
  | @concluded m v response h n k =>
    obtain ⟨x, rfl⟩ := h.exists_singleton
    -- A failed extraction or assertion adds a second sample.
    have htwo {w : List F64} (hw : w ≠ []) {failed : Bool} : ¬ Counted failed ([x] ++ w) := by
      rintro ⟨y, hy, -⟩
      exact hw (List.cons.inj hy).2
    by_cases hn : 0 < n
    · refine iff_of_false (htwo (by simp [hn])) fun hregular => hregular.extraction ?_
      simp [Nat.pos_iff_ne_zero.1 hn]
    by_cases hk : 0 < k
    · refine iff_of_false (htwo (by simp [hk])) fun hregular => hregular.assertion ?_
      simp [Nat.pos_iff_ne_zero.1 hk]
    obtain rfl : n = 0 := by omega
    obtain rfl : k = 0 := by omega
    by_cases hengine : unscripted script req.assert = true
    · refine iff_of_false (htwo (by simp [hengine])) fun hregular => h.cut_notMem ?_
      simpa using hregular.engine hengine (by simp)
    simp only [Nat.lt_irrefl, hengine, or_self, if_false, replicate_zero, append_nil,
      Bool.false_eq_true, counted_singleton]
    cases h with
    | unsent | discarded =>
      refine iff_of_true (by simp [requestFailed, Mark.fails, one_ne_zero]) ?_
      constructor <;> simp [hengine]
    | answered =>
      have hfailed : requestFailed script req [.prepared, .handled req, .answered response] =
          response.failed := by
        simp [requestFailed, Mark.fails, hengine]
      rw [hfailed, rateValue_ne_zero, ← Bool.eq_iff_iff, recordedFailure_eq_failed_iff]
      constructor
      · intro hsession
        constructor <;> simp_all
      · exact fun hregular hws => hregular.session hws (by simp) response (by simp)

/-- An execution of a request step: a run of `run_request`, with the time after which it was
cancelled if it was. -/
structure Execution where
  program : ScenarioProgram
  script : Option Script
  req : CompiledRequest
  vu : VuContext
  elapsed : F64
  transcript : Transcript
  result : Option (RequestFlow × VuContext × List FailureAction)
  runs : Runs Output.IsAwait (runRequest program script req vu) transcript result

namespace Execution

variable (x : Execution)

def marks : List Mark := Flow.marks x.program x.transcript

def samples : List F64 := failureValues x.elapsed x.transcript

def failed : Bool := requestFailed x.script x.req x.marks

/-- No row is missing, the request is not cut before it is prepared, no extraction and no assertion
fails, and a session fails by its connection only. -/
def Regular : Prop := Flow.Regular x.script x.req x.marks

theorem settled : Settled x.script x.req x.marks x.samples :=
  (always_iff.1 (shows_runRequest x.program x.elapsed x.script x.req x.vu) _ _ x.runs).1

end Execution

/-! ## Iterations -/

structure Iteration where
  program : ScenarioProgram
  script : Option Script
  vu : VuContext
  elapsed : F64
  transcript : Transcript
  result : Option Result
  runs : Runs Output.IsAwait (runIteration program script vu) transcript result

def Iteration.samples (i : Iteration) : List F64 := failureValues i.elapsed i.transcript

def Mark.ofAnswer : Mark → Bool
  | .cut | .reset | .fork | .join => false
  | _ => true

def requestMarks (program : ScenarioProgram) (t : Transcript) : List Mark :=
  (marks program t).filter (·.ofAnswer)

def execFails : Entry → Bool
  | .asked (.script .exec _) effect => match Effect.value effect with
    | .ok _ => false
    | .error _ => true
  | _ => false

/-- The executions of request steps that a transcript is made of: they got all answers to requests
that stand in it, and recorded all its samples. -/
structure Comprises (program : ScenarioProgram) (elapsed : F64) (t : Transcript)
    (xs : List Execution) : Prop where
  program_eq : ∀ x ∈ xs, x.program = program
  marks_eq : requestMarks program t = xs.flatMap fun x => requestMarks program x.transcript
  samples_eq : failureValues elapsed t = xs.flatMap (·.samples)

theorem Comprises.append {t u : Transcript} {xs ys : List Execution}
    (ht : Comprises program elapsed t xs) (hu : Comprises program elapsed u ys) :
    Comprises program elapsed (t ++ u) (xs ++ ys) where
  program_eq x hx := (mem_append.1 hx).elim (ht.program_eq x) (hu.program_eq x)
  marks_eq := by
    rw [flatMap_append, ← ht.marks_eq, ← hu.marks_eq]
    simp [requestMarks, marks]
  samples_eq := by
    rw [flatMap_append, ← ht.samples_eq, ← hu.samples_eq]
    simp [failureValues, emitted]

theorem comprises_single {e : Entry}
    (hanswers : (marksAt program e).filter (·.ofAnswer) = [])
    (hsamples : (emittedAt elapsed e).filterMap Emission.failure = []) :
    Comprises program elapsed [e] [] where
  program_eq := by simp
  marks_eq := by simpa [requestMarks, marks] using hanswers
  samples_eq := by simpa [failureValues, emitted] using hsamples

/-- A transcript in which no `exec` function fails is made of executions of request steps. -/
def Divides (program : ScenarioProgram) (t : Transcript) : Prop :=
  t.any execFails = false → ∀ elapsed, ∃ xs, Comprises program elapsed t xs

theorem marks_within (program : ScenarioProgram) (name : String) (t : Transcript) :
    marks program (t.map (.relay (.within name))) = marks program t := by
  have hat (e : Entry) : marksAt program (e.relay (.within name)) = marksAt program e := by
    cases e with
    | told o => cases o <;> rfl
    | _ => rfl
  simp [marks, flatMap_map, hat]

theorem failure_within (name : String) (e : Emission) : (e.within name).failure = e.failure := by
  cases e <;> rfl

theorem failureValues_within (elapsed : F64) (name : String) (t : Transcript) :
    failureValues elapsed (t.map (.relay (.within name))) = failureValues elapsed t := by
  have hat (e : Entry) :
      emittedAt elapsed (e.relay (.within name)) = (emittedAt elapsed e).map (.within name) := by
    cases e with
    | asked => rfl
    | told o => cases o <;> rfl
    | cut o => cases o <;> rfl
  simp [failureValues, emitted, flatMap_map, filterMap_flatMap, hat, filterMap_map,
    failure_within]

theorem requestMarks_severed (elapsed : F64) (t : Transcript) :
    requestMarks program (severed elapsed t) = requestMarks program t := by
  have hat (e : Entry) : ((severedAt elapsed e).flatMap (marksAt program)).filter (·.ofAnswer) =
      (marksAt program e).filter (·.ofAnswer) := by
    cases e with
    | asked => simp [severedAt]
    | told o | cut o => cases o <;> rfl
  simp only [requestMarks, marks, severed, flatMap_assoc, filter_flatMap] at hat ⊢
  exact congrArg (t.flatMap ·) (funext hat)

theorem failureValues_severed (elapsed elapsed' : F64) (t : Transcript) :
    failureValues elapsed' (severed elapsed t) = failureValues elapsed t := by
  have hat (e : Entry) : (severedAt elapsed e).flatMap (emittedAt elapsed') =
      emittedAt elapsed e := by
    cases e with
    | asked => simp [severedAt, emittedAt]
    | told o | cut o => cases o <;> simp [severedAt, emittedAt]
  simp [failureValues, emitted, severed, flatMap_assoc, hat]

theorem execFails_severed (elapsed : F64) (t : Transcript) :
    (severed elapsed t).any execFails = t.any execFails := by
  have hat (e : Entry) : (severedAt elapsed e).any execFails = execFails e := by
    cases e with
    | asked => simp [severedAt]
    | told o | cut o => cases o <;> rfl
  simp [severed, any_flatMap, hat]

theorem execFails_relay (f : Output → Output) (t : Transcript) :
    (t.map (.relay f)).any execFails = t.any execFails := by
  have hat (e : Entry) : execFails (e.relay f) = execFails e := by
    cases e <;> rfl
  simp [any_map, Function.comp_def, hat]

section

variable (program : ScenarioProgram)

theorem composed_divides : Composed (Divides program) where
  nil _ _ := ⟨[], by simp, rfl, rfl⟩
  append ht hu hexec elapsed := by
    rw [any_append, Bool.or_eq_false_iff] at hexec
    obtain ⟨xs, hxs⟩ := ht hexec.1 elapsed
    obtain ⟨ys, hys⟩ := hu hexec.2 elapsed
    exact ⟨xs ++ ys, hxs.append hys⟩
  within {t} name ht hexec elapsed := by
    obtain ⟨xs, hxs⟩ := ht (execFails_relay _ t ▸ hexec) elapsed
    refine ⟨xs, hxs.program_eq, ?_, (failureValues_within elapsed name t).trans hxs.samples_eq⟩
    rw [← hxs.marks_eq, requestMarks, marks_within, requestMarks]
  severed {t} elapsed ht hexec elapsed' := by
    obtain ⟨xs, hxs⟩ := ht (execFails_severed elapsed t ▸ hexec) elapsed
    exact ⟨xs, hxs.program_eq, (requestMarks_severed elapsed t).trans hxs.marks_eq,
      (failureValues_severed elapsed elapsed' t).trans hxs.samples_eq⟩
  plain {e} he _ elapsed := by
    refine ⟨[], comprises_single ?_ ?_⟩
    · unfold Plain at he
      split at he
      case h_1 => rcases he with rfl | rfl | rfl <;> rfl
      all_goals first | rfl | exact he.elim
    · unfold Plain at he
      split at he
      case h_8 =>
        obtain ⟨vu, tags, rfl⟩ := he
        rfl
      case h_10 => simp [emittedAt, he]
      all_goals first | rfl | exact he.elim

theorem leaves_request (script : Option Script)
    (req : CompiledRequest) (vu : VuContext) :
    Leaves (Divides program) (runRequest program script req vu) :=
  always_iff.2 fun t r hruns _ elapsed =>
    ⟨[⟨program, script, req, vu, elapsed, t, r, hruns⟩], by simp, by simp, by
      simp [Execution.samples]⟩

theorem leaves_exec (script : Option Script)
    (r : Result) : Leaves (Divides program) (runExec program script r) := by
  have hC := composed_divides program
  unfold runExec
  split
  · rename_i exec engine _ _
    have hscript : (runScript .exec engine (.call exec) r.vu).Always Output.IsAwait fun t s =>
        ∃ a, s = some a ∧ ((∃ message, a.1 = .error message) → t.any execFails = true) ∧
          Divides program t := by
      refine fun effect => ⟨fun h => h.elim, _, rfl, ?_, ?_⟩
      · rintro ⟨message, h⟩
        simp only at h
        simp [execFails, h]
      · exact hC.append (t := [_]) (fun _ _ => ⟨[], comprises_single rfl rfl⟩) (hC.plain trivial)
    refine always_bind.2 (hscript.mono ?_)
    rintro t _ ⟨⟨value, vu⟩, rfl, herror, ht⟩
    cases value with
    | ok => exact hC.append ht hC.nil
    | error message =>
      refine always_iff.2 fun u s _ hexec => absurd hexec ?_
      simp [herror ⟨message, rfl⟩]
  · exact leaves_pure hC _
  · exact leaves_pure hC _

theorem leaves_runIteration (script : Option Script)
    (vu : VuContext) : Leaves (Divides program) (runIteration program script vu) := by
  have hC := composed_divides program
  have hbegin : Leaves (Divides program) (tell .beginIteration) :=
    ⟨fun h => h.elim, fun _ _ => ⟨[], comprises_single rfl rfl⟩⟩
  have hrecord (vu : VuContext) : Leaves (Divides program) (recordIteration vu) :=
    fun duration => ⟨fun h => h.elim, hC.append (fun _ _ => ⟨[], comprises_single rfl rfl⟩)
      fun _ _ => ⟨[], comprises_single rfl rfl⟩⟩
  refine hbegin.bind hC fun _ => ?_
  refine (leaves_runOnStart hC program script _).bind hC fun ⟨vu, started⟩ => ?_
  refine (leaves_runSteps hC (leaves_request program) script _ vu).bind hC fun r => ?_
  refine (leaves_exec program script _).bind hC fun r => ?_
  exact (hrecord r.vu).bind hC fun _ => leaves_pure hC _

end

theorem Iteration.exists_comprises (i : Iteration) (h : i.transcript.any execFails = false) :
    ∃ xs, Comprises i.program i.elapsed i.transcript xs :=
  always_iff.1 (leaves_runIteration i.program i.script i.vu) _ _ i.runs h i.elapsed

theorem samples_of_counted {xs : List Execution} (h : ∀ x ∈ xs, Counted x.failed x.samples) :
    (xs.flatMap (·.samples)).length = xs.length ∧
      (xs.flatMap (·.samples)).countP (· ≠ 0) = xs.countP (·.failed) := by
  induction xs with
  | nil => exact ⟨rfl, rfl⟩
  | cons x xs ih =>
    obtain ⟨hlength, hcount⟩ := ih fun y hy => h y (by simp [hy])
    obtain ⟨v, hv, hfailed⟩ := h x (by simp)
    constructor
    · simp [hv, hlength]
    · rw [flatMap_cons, countP_append, hcount, hv, countP_cons, countP_cons]
      simp [hfailed, Nat.add_comm]

theorem samples_of_comprises {is : List Iteration} {xss : List (List Execution)}
    (h : List.Forall₂ (fun i xs => Comprises i.program i.elapsed i.transcript xs) is xss) :
    is.flatMap (·.samples) = xss.flatten.flatMap (·.samples) := by
  induction h with
  | nil => rfl
  | cons hi _ ih =>
    rw [flatMap_cons, ih, flatten_cons, flatMap_append, ← hi.samples_eq]
    rfl

/-- An execution of a request step has exactly one failure sample, non-zero exactly when the request
failed, if and only if it is regular.  Over any number of iterations in which no `exec` function
fails, the samples are those of the request steps executed, and if these are regular there are as
many samples as requests and as many non-zero ones as failed requests. -/
theorem failure_samples_iff (is : List Iteration) :
    (∀ x : Execution, Counted x.failed x.samples ↔ x.Regular) ∧
    ((∀ i ∈ is, i.transcript.any execFails = false) →
      ∃ xss : List (List Execution),
        List.Forall₂ (fun i xs => Comprises i.program i.elapsed i.transcript xs) is xss ∧
        ((∀ x ∈ xss.flatten, x.Regular) →
          (is.flatMap (·.samples)).length = xss.flatten.length ∧
          (is.flatMap (·.samples)).countP (· ≠ 0) = xss.flatten.countP (·.failed))) := by
  have hcounted (x : Execution) : Counted x.failed x.samples ↔ x.Regular :=
    counted_iff_regular x.settled
  refine ⟨hcounted, fun his => ?_⟩
  have hexists : ∃ xss, List.Forall₂
      (fun i xs => Comprises i.program i.elapsed i.transcript xs) is xss := by
    induction is with
    | nil => exact ⟨[], .nil⟩
    | cons i is ih =>
      obtain ⟨xs, hxs⟩ := i.exists_comprises (his i (by simp))
      obtain ⟨xss, hxss⟩ := ih fun j hj => his j (by simp [hj])
      exact ⟨xs :: xss, .cons hxs hxss⟩
  obtain ⟨xss, hxss⟩ := hexists
  refine ⟨xss, hxss, fun hregular => ?_⟩
  rw [samples_of_comprises hxss]
  exact samples_of_counted fun x hx => (hcounted x).2 (hregular x hx)

def assertedRequest : CompiledRequest :=
  ⟨"order", "http", "POST", [], [⟨"status is 201", none, .continue⟩], []⟩

/-- The request is sent and answered with the status 200; the assertion has this result. -/
def repliesWith (pass : Bool) : (q : Query) → Option q.Answer
  | .prepare req => some ⟨.ready req.displayName, fun _ => none, 0, [], []⟩
  | .handled _ => some true
  | .execute _ => some { protocolVersion := "HTTP/1.1", status := 200 }
  | .evaluate _ _ _ => some { pass }
  | _ => none

def trialRun (pass : Bool) :
    Option (Transcript × Option (RequestFlow × VuContext × List FailureAction)) :=
  (runRequest { name := "shop", steps := [] } none assertedRequest .new).trial (repliesWith pass)
    fun _ => false

def assertedExecution (pass : Bool) : Execution where
  program := { name := "shop", steps := [] }
  script := none
  req := assertedRequest
  vu := .new
  elapsed := 0
  transcript := ((trialRun pass).getD ([], none)).1
  result := ((trialRun pass).getD ([], none)).2
  runs := runs_of_trial (by simp) (show trialRun pass = _ by cases pass <;> rfl)

theorem failure_samples_iff_passing :
    (assertedExecution true).Regular ∧
      Counted (assertedExecution true).failed (assertedExecution true).samples := by
  have hregular : (assertedExecution true).Regular := by
    have hmarks : (assertedExecution true).marks =
        [.prepared, .handled assertedRequest,
          .answered { protocolVersion := "HTTP/1.1", status := 200 }] := rfl
    unfold Execution.Regular
    rw [hmarks]
    constructor <;> simp [assertedExecution, assertedRequest, unscripted]
  exact ⟨hregular, ((failure_samples_iff []).1 _).2 hregular⟩

/-- A request that is answered but fails its assertion has two samples, one of each value. -/
theorem failure_sampled_twice :
    (assertedExecution false).samples = [0, .fin 1] ∧
      ¬ Counted (assertedExecution false).failed (assertedExecution false).samples := by
  have hsamples : (assertedExecution false).samples = [0, .fin 1] := by decide +kernel
  refine ⟨hsamples, ?_⟩
  rw [hsamples]
  rintro ⟨_, h, -⟩
  exact absurd (congrArg List.length h) (by simp)

end Loadr.Flow
