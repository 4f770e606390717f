import Loadr.Request.Prepare

/-!
# The expressions of a request

What rendering the parts of a request does to the session is what their expressions do one after the
other: for every relation between sessions that composes, the lemmas carry it from expressions to
templates, JSON values and the parts of a request.
-/

namespace Loadr.Request

open Loadr.Flow Fallible List Option

abbrev Call := Field × String

/-! ## Templates and values -/

theorem expressions_cons (part : Part) (parts : List Part) (source : String) :
    (⟨part :: parts, source⟩ : Template).expressions = (match part with
      | .lit _ => []
      | .expr e => [e]) ++ (⟨parts, source⟩ : Template).expressions := by
  cases part <;> rfl

def textExpressions (s : String) : List String :=
  match Template.parse s with
  | .ok t => t.expressions
  | .error _ => []

theorem textExpressions_of_literal {s : String} {t : Template} (h : Template.parse s = .ok t)
    (hl : t.isLiteral = true) : textExpressions s = [] := by
  rw [textExpressions, h]
  refine filterMap_eq_nil_iff.2 fun part hpart => ?_
  have hlit := all_eq_true.1 hl part hpart
  cases part with
  | lit text => rfl
  | expr e => cases hlit

mutual

def compiledExpressions : CompiledJson → List String
  | .literal _ => []
  | .string t | .splice t => t.expressions
  | .array items => compiledItemExpressions items
  | .object fields => compiledFieldExpressions fields

def compiledItemExpressions : List CompiledJson → List String
  | [] => []
  | item :: items => compiledExpressions item ++ compiledItemExpressions items

def compiledFieldExpressions : List (String × CompiledJson) → List String
  | [] => []
  | (_, value) :: fields => compiledExpressions value ++ compiledFieldExpressions fields

end

/-- A relation between sessions that says what an expression does. -/
def Traces (w : World) (R : List Call → Session → Session → Prop) : Prop :=
  ∀ f expr, Does R (renderExpr w f expr) [(f, expr)]

theorem does_renderOption {R : List Call → Session → Session → Prop} [Composes R] {α β : Type}
    {render : α → Render β} {g : α → List Call} (h : ∀ a, Does R (render a) (g a)) (o : Option α) :
    Does R (renderOption render o) (o.toList.flatMap g) := by
  cases o with
  | none => exact Does.pure none
  | some a =>
    rw [toList_some, flatMap_singleton]
    exact (h a).bind_pure

section Render

variable {w : World} {f : Field} {R : List Call → Session → Session → Prop} [Composes R]
  (hR : Traces w R)

include hR

theorem does_renderTemplate (t : Template) :
    Does R (renderTemplate w f t) (t.expressions.map (f, ·)) := by
  obtain ⟨parts, source⟩ := t
  have hparts : ∀ out, Does R (parts.foldlM (Flow.renderPart (renderExpr w f)) out)
      ((⟨parts, source⟩ : Template).expressions.map (f, ·)) := by
    induction parts with
    | nil => exact fun out => Does.pure out
    | cons part parts ih =>
      intro out
      rw [foldlM_cons, expressions_cons, map_append]
      refine Does.bind ?_ fun out => ih out
      cases part with
      | lit text => exact Does.pure _
      | expr e => exact (hR f e).bind_pure
  exact hparts ""

theorem does_renderStr (s : String) :
    Does R (renderStr w f s) ((textExpressions s).map (f, ·)) := by
  unfold renderStr textExpressions
  cases Template.parse s with
  | ok t => exact does_renderTemplate hR t
  | error e => exact Does.throw _ _

theorem does_renderPairs (pairs : List (String × Template)) :
    Does R (renderPairs w f pairs)
      ((pairs.flatMap (·.2.expressions)).map (f, ·)) := by
  rw [map_flatMap]
  exact Does.mapM
    (fun pair => (does_renderTemplate hR pair.2).bind_pure) pairs

mutual

theorem does_renderJson : ∀ v : Json, Does R (renderJson w f v)
    (((Json.strings v).flatMap textExpressions).map (f, ·))
  | .string s => by
    unfold renderJson Flow.renderJson
    rw [Json.strings, flatMap_singleton]
    split
    · exact Does.throw _ _
    · rename_i t ht
      have hexpr : textExpressions s = t.expressions := by rw [textExpressions, ht]
      split_ifs with hl hone
      · rw [textExpressions_of_literal ht hl]
        exact Does.pure _
      · rw [hexpr]
        exact (does_renderTemplate hR t).bind_pure
      · rw [hexpr]
        exact (does_renderTemplate hR t).bind_pure
  | .array items => by
    unfold renderJson Flow.renderJson
    exact (does_renderJsonItems items).bind_pure
  | .object fields => by
    unfold renderJson Flow.renderJson
    exact (does_renderJsonFields fields).bind_pure
  | .null | .bool _ | .number _ => Does.pure _

theorem does_renderJsonItems : ∀ items : List Json, Does R
    (Flow.renderJsonItems w.lib.fromStr (renderTemplate w f) (fun e => .other e.message) items)
    (((itemStrings items).flatMap textExpressions).map (f, ·))
  | [] => Does.pure _
  | item :: items => by
    rw [itemStrings, flatMap_append, map_append]
    exact (does_renderJson item).bind fun _ =>
      (does_renderJsonItems items).bind_pure

theorem does_renderJsonFields : ∀ fields : List (String × Json), Does R
    (Flow.renderJsonFields w.lib.fromStr (renderTemplate w f) (fun e => .other e.message) fields)
    (((fieldStrings fields).flatMap textExpressions).map (f, ·))
  | [] => Does.pure _
  | (key, value) :: fields => by
    rw [fieldStrings, flatMap_append, map_append]
    exact (does_renderJson value).bind fun _ =>
      (does_renderJsonFields fields).bind_pure

end

mutual

theorem does_compiled : ∀ c : CompiledJson, Does R
    (c.render w.lib.fromStr (renderTemplate w f)) ((compiledExpressions c).map (f, ·))
  | .literal _ => Does.pure _
  | .string t | .splice t => (does_renderTemplate hR t).bind_pure
  | .array items => (does_compiledItems items).bind_pure
  | .object fields => (does_compiledFields fields).bind_pure

theorem does_compiledItems : ∀ items : List CompiledJson, Does R
    (CompiledJson.renderItems w.lib.fromStr (renderTemplate w f) items)
    ((compiledItemExpressions items).map (f, ·))
  | [] => Does.pure _
  | item :: items => by
    rw [compiledItemExpressions, map_append]
    exact (does_compiled item).bind fun _ =>
      (does_compiledItems items).bind_pure

theorem does_compiledFields : ∀ fields : List (String × CompiledJson), Does R
    (CompiledJson.renderFields w.lib.fromStr (renderTemplate w f) fields)
    ((compiledFieldExpressions fields).map (f, ·))
  | [] => Does.pure _
  | (key, value) :: fields => by
    rw [compiledFieldExpressions, map_append]
    exact (does_compiled value).bind fun _ =>
      (does_compiledFields fields).bind_pure

end

end Render

/-! ## The parts of a request -/

section Parts

variable (w : World) (x : String) (http : HttpDefaults) (req : CompiledRequest)

def jsonExpressions (v : Json) : List String := (Json.strings v).flatMap textExpressions

def frames : List CompiledJson :=
  match req.grpc with
  | none => []
  | some grpc => match grpc.messages with
    | .literal _ => []
    | .dynamic values times => (List.replicate times values).flatten

def bodyExpressions : List String :=
  match req.graphql with
  | some gql => gql.vars.toList.flatMap jsonExpressions
  | none => match req.body with
    | .none | .bytes _ => []
    | .text t => t.expressions
    | .json v => jsonExpressions v
    | .form fields => fields.flatMap (·.2.expressions)
    | .multipart parts => parts.flatMap fun part => part.value.toList.flatMap Template.expressions

def wsExpressions : WsMessage → List String
  | .text text | .detailed (some text) _ _ => textExpressions text
  | .detailed none _ _ => []

def valueExpressions : CompiledGrpcValue → List String
  | .literal _ => []
  | .dynamic value => compiledExpressions value

/-- Stop conditions of an event stream take the place of free-form options. -/
def pluginExpressions : List String :=
  match req.sql, req.sse.map sseOptions with
  | some _, _ | none, some (_ :: _) => []
  | _, _ => req.plugin.toList.flatMap jsonExpressions

def expressionsOf : Field → List String
  | .url => req.url.expressions
  | .base => http.baseUrl.toList.flatMap textExpressions
  | .params => req.params.flatMap (·.2.expressions)
  | .headers => http.headers.flatMap (textExpressions ·.2) ++ req.headers.flatMap (·.2.expressions)
  | .body => bodyExpressions req
  | .ws => req.ws.toList.flatMap fun ws => ws.send.flatMap wsExpressions
  | .frame k => (frames req)[k]?.toList.flatMap compiledExpressions
  | .metadata => req.grpc.toList.flatMap fun grpc => grpc.metadata.flatMap (·.2.expressions)
  | .message => req.grpc.toList.flatMap fun grpc => grpc.message.toList.flatMap valueExpressions
  | .socket => req.socket.toList.flatMap fun socket => socket.sendText.toList.flatMap textExpressions
  | .sql => req.sql.toList.flatMap fun sql =>
      textExpressions sql.query ++ sql.params.flatMap textExpressions
  | .plugin => pluginExpressions req
  | .name => req.name.toList.flatMap Template.expressions

def callsOf (f : Field) : List Call := (expressionsOf http req f).map (f, ·)

def earlyFields (relative : Bool) : List Field :=
  .url :: (if relative then [.base] else []) ++ [.params, .headers, .body, .ws]

def lateFields : List Field := [.metadata, .message, .socket, .sql, .plugin, .name]

/-- The URL is relative as it is rendered first. -/
def relativeUrl (s : Session) : Bool :=
  match (renderTemplate w .url req.url).run.run s with
  | (.ok url, _) => !hasText url "://"
  | (.error _, _) => false

end Parts

/-! ## Rendering the parts -/

section Prepare

variable {w : World} {http : HttpDefaults} {req : CompiledRequest}
  {R : List Call → Session → Session → Prop} [Composes R]
  (hR : Traces w R)

include hR

theorem does_prepareHeaders : Does R (prepareHeaders w http req) (callsOf http req .headers) := by
  have hdefault : ∀ header : String × String, Does R (do
      let value ← renderStr w .headers header.2
      return (header.1, value)) ((textExpressions header.2).map (.headers, ·)) :=
    fun header => (does_renderStr hR header.2).bind_pure
  have hdefaults := Does.mapM hdefault http.headers
  rw [← map_flatMap] at hdefaults
  rw [callsOf, expressionsOf, map_append]
  exact hdefaults.bind fun _ =>
    (does_renderPairs hR req.headers).bind_pure

theorem does_renderMultipart (boundary : String) (parts : List CompiledPart) :
    Does R (renderMultipart w boundary parts) ((parts.flatMap fun part =>
      part.value.toList.flatMap Template.expressions).map (.body, ·)) := by
  have hpart : ∀ part : CompiledPart, Does R (renderPart w part)
      ((part.value.toList.flatMap Template.expressions).map (.body, ·)) := by
    intro part
    unfold renderPart
    cases part.value with
    | none => exact Does.pure _
    | some t =>
      rw [toList_some, flatMap_singleton]
      exact (does_renderTemplate hR t).bind_pure
  rw [map_flatMap]
  exact (Does.mapM
    (fun part => (hpart part).bind_pure) parts).bind_pure

theorem does_prepareBody : Does R (prepareBody w req) (callsOf http req .body) := by
  rw [callsOf, expressionsOf]
  unfold prepareBody bodyExpressions
  cases req.graphql with
  | some gql =>
    rw [map_flatMap]
    have hvars : Does R (renderOption (renderJson w .body) gql.vars)
        (gql.vars.toList.flatMap fun v => (jsonExpressions v).map (.body, ·)) :=
      does_renderOption (fun v => does_renderJson hR v) gql.vars
    exact hvars.bind_pure
  | none =>
    cases req.body with
    | none | bytes => exact Does.pure _
    | text t => exact (does_renderTemplate hR t).bind_pure
    | json v => exact (does_renderJson hR v).bind_pure
    | form fields => exact (does_renderPairs hR fields).bind_pure
    | multipart parts => exact (does_renderMultipart hR _ parts).bind_pure

theorem does_prepareWs : Does R (prepareWs w req) (callsOf http req .ws) := by
  have hmessage : ∀ m : WsMessage, Does R (renderWsMessage w m)
      ((wsExpressions m).map (.ws, ·)) := by
    intro m
    match m with
    | .text text => exact (does_renderStr hR text).bind_pure
    | .detailed (some text) _ delay => exact (does_renderStr hR text).bind_pure
    | .detailed none (some b64) delay =>
      rw [renderWsMessage]
      cases w.lib.decodeBase64 (String.ofList (trim b64.toList)) with
      | ok bytes => exact Does.pure _
      | error e => exact Does.throw _ _
    | .detailed none none delay => exact Does.pure _
  rw [callsOf, expressionsOf]
  unfold prepareWs
  cases req.ws with
  | none => exact Does.pure _
  | some ws =>
    rw [toList_some, flatMap_singleton, map_flatMap]
    exact (Does.mapM hmessage ws.send).bind_pure

theorem does_grpcRender {grpc : CompiledGrpc} (hgrpc : req.grpc = some grpc) (messages : List Json) :
    Does R (grpc.render w messages)
      (callsOf http req .metadata ++ callsOf http req .message) := by
  have hvalue : ∀ v : CompiledGrpcValue, Does R (v.render w)
      ((valueExpressions v).map (.message, ·)) := by
    intro v
    cases v with
    | literal value => exact Does.pure _
    | dynamic value => exact does_compiled hR value
  simp only [callsOf, expressionsOf, hgrpc, toList_some, flatMap_singleton]
  rw [map_flatMap (l := grpc.message.toList)]
  exact (does_renderPairs hR grpc.metadata).bind fun _ =>
    (does_renderOption hvalue grpc.message).bind_pure

theorem does_prepareSocket : Does R (prepareSocket w req) (callsOf http req .socket) := by
  rw [callsOf, expressionsOf]
  unfold prepareSocket socketPayload
  cases req.socket with
  | none => exact Does.pure _
  | some socket =>
    rw [toList_some, flatMap_singleton]
    refine Does.bind_pure ?_
    cases socket.sendText with
    | some text =>
      rw [toList_some, flatMap_singleton]
      exact (does_renderStr hR text).bind_pure
    | none =>
      cases socket.sendHex with
      | none => exact Does.pure _
      | some hex =>
        dsimp only
        split
        · exact Does.pure _
        · exact Does.throw _ _

theorem does_preparePlugin : Does R (preparePlugin w req)
    (callsOf http req .sql ++ callsOf http req .plugin) := by
  simp only [callsOf, expressionsOf, pluginExpressions]
  unfold preparePlugin
  cases req.sql with
  | some sql =>
    have hparams : Does R (sql.params.mapM fun p => do
        let p ← renderStr w .sql p
        return Json.string p) ((sql.params.flatMap textExpressions).map (.sql, ·)) := by
      rw [map_flatMap]
      exact Does.mapM
        (fun p => (does_renderStr hR p).bind_pure) sql.params
    rw [toList_some, flatMap_singleton, map_append, map_nil, append_nil]
    exact (does_renderStr hR sql.query).bind fun _ => hparams.bind_pure
  | none =>
    have hoptions : Does R (renderOption (renderJson w .plugin) req.plugin)
        ((req.plugin.toList.flatMap jsonExpressions).map (.plugin, ·)) := by
      rw [map_flatMap]
      exact does_renderOption (fun v => does_renderJson hR v) req.plugin
    rw [toList_none, flatMap_nil, map_nil, nil_append]
    cases req.sse.map sseOptions with
    | none => exact hoptions
    | some options =>
      cases options with
      | nil => exact hoptions
      | cons option options => exact Does.pure _

theorem does_prepareName : Does R (prepareName w req) (callsOf http req .name) := by
  rw [callsOf, expressionsOf]
  unfold prepareName
  cases req.name with
  | none => exact Does.pure _
  | some t =>
    rw [toList_some, flatMap_singleton]
    exact does_renderTemplate hR t

theorem does_prepareUrl {s t : Session} {url : String} (h : Gives (prepareUrl w http req) s url t) :
    R (callsOf http req .url ++ if relativeUrl w req s then callsOf http req .base else []) s t := by
  obtain ⟨own, u, hown, h⟩ := gives_bind.1 h
  have hrelative : relativeUrl w req s = !hasText own "://" := by
    rw [relativeUrl, show (renderTemplate w .url req.url).run.run s = (.ok own, u) from hown]
  have hurl : R (callsOf http req .url) s u := does_renderTemplate hR req.url _ _ _ hown
  refine Composes.append hurl ?_
  rw [hrelative]
  split_ifs at h with habsolute
  · obtain ⟨-, rfl⟩ := gives_pure.1 h
    rw [habsolute]
    exact Composes.nil t
  · rw [Bool.eq_false_iff.2 habsolute, Bool.not_false, if_pos rfl, callsOf, expressionsOf]
    cases hbase : http.baseUrl with
    | none =>
      rw [hbase] at h
      obtain ⟨-, rfl⟩ := gives_pure.1 h
      exact Composes.nil t
    | some base =>
      rw [hbase] at h
      rw [toList_some, flatMap_singleton]
      exact (does_renderStr hR base).bind_pure _ _ _ h

theorem does_prepareGrpc {s t : Session} {grpc : Option GrpcRequest}
    (h : Gives (prepareGrpc w req) s grpc t) :
    ∃ messages u, Gives (renderFrames w 0 (frames req)) s messages u ∧
      R (callsOf http req .metadata ++ callsOf http req .message) u t := by
  unfold prepareGrpc at h
  unfold frames
  cases hgrpc : req.grpc with
  | none =>
    rw [hgrpc] at h
    obtain ⟨-, rfl⟩ := gives_pure.1 h
    refine ⟨[], t, gives_pure.2 ⟨rfl, rfl⟩, ?_⟩
    simp only [callsOf, expressionsOf, hgrpc]
    exact Composes.nil t
  | some compiled =>
    rw [hgrpc] at h
    obtain ⟨messages, u, hmessages, h⟩ := gives_bind.1 h
    have hcall := (@does_grpcRender w http req R _ hR _ hgrpc messages).bind_pure _ _ _ h
    dsimp only
    cases hm : compiled.messages with
    | literal values =>
      rw [hm] at hmessages
      obtain ⟨-, rfl⟩ := gives_pure.1 hmessages
      exact ⟨[], u, gives_pure.2 ⟨rfl, rfl⟩, hcall⟩
    | dynamic values times =>
      rw [hm] at hmessages
      exact ⟨messages, u, hmessages, hcall⟩

theorem does_prepare {s t : Session} {prepared : PreparedRequest}
    (h : Gives (prepare w http req) s prepared t) :
    ∃ messages u u', R ((earlyFields (relativeUrl w req s)).flatMap (callsOf http req)) s u ∧
      Gives (renderFrames w 0 (frames req)) u messages u' ∧
      R (lateFields.flatMap (callsOf http req)) u' t := by
  obtain ⟨url, params, headers, body, contentType, ws, grpc, socket, plugin, name, u₁, u₂, u₃, u₄, u₅,
    u₆, u₇, u₈, hurl, hparams, hheaders, hbody, hws, hgrpc, hsocket, hplugin, hname, -, -⟩ :=
    gives_prepare h
  have hearly := Composes.append (does_prepareUrl hR hurl) <|
    Composes.append (does_renderPairs hR req.params _ _ _ hparams) <|
    Composes.append (does_prepareHeaders hR _ _ _ hheaders) <| Composes.append
    (@does_prepareBody w http req _ _ hR _ _ _ hbody) (@does_prepareWs w http req _ _ hR _ _ _ hws)
  obtain ⟨messages, u, hmessages, hcall⟩ := @does_prepareGrpc w http req R _ hR _ _ _ hgrpc
  have hlate := Composes.append hcall <|
    Composes.append (@does_prepareSocket w http req _ _ hR _ _ _ hsocket) <|
    Composes.append (@does_preparePlugin w http req _ _ hR _ _ _ hplugin)
      (@does_prepareName w http req _ _ hR _ _ _ hname)
  refine ⟨messages, u₅, u, ?_, hmessages, by simpa [lateFields] using hlate⟩
  rw [earlyFields]
  split_ifs at hearly ⊢
  · simpa [callsOf, expressionsOf] using hearly
  · simpa [callsOf, expressionsOf] using hearly

end Prepare

/-! ## What expressions look up -/

def jsCode (expr : String) : Option String :=
  if (stripPrefix "payload:" expr).isSome then none else stripPrefix "js:" expr

def dataSource (w : World) (expr : String) : Option String :=
  if (stripPrefix "payload:" expr).isSome || (stripPrefix "js:" expr).isSome ||
      (staticValue w expr).isSome then none
  else (dataReference expr).join.map Prod.fst

/-- The sources that an expression looks up, as the `k`-th script of its part if it is one. -/
def exprSources (w : World) (f : Field) (k : ℕ) (expr : String) : List String :=
  match jsCode expr with
  | some code => match w.script with
    | some engine => (engine.eval f k code).lookups
    | none => []
  | none => (dataSource w expr).toList

def bump (evals : Field → ℕ) (call : Call) : Field → ℕ :=
  if (jsCode call.2).isSome then Function.update evals call.1 (evals call.1 + 1) else evals

section Expression

variable {w : World} {f : Field} {expr : String} {s t : Session}

theorem lookupRows_of_resolveExpr {value : Option String}
    (hpayload : stripPrefix "payload:" expr = none) (hjs : stripPrefix "js:" expr = none)
    (h : resolveExpr w f expr s = (.ok value, t)) :
    lookupRows w f (dataSource w expr).toList s = (true, t) := by
  have hsource : dataSource w expr = if (staticValue w expr).isSome then none
      else (dataReference expr).join.map Prod.fst := by
    simp [dataSource, hpayload, hjs]
  rw [hsource]
  unfold resolveExpr at h
  split at h
  · rename_i hstatic
    rw [hstatic, ← show s = t from congrArg Prod.snd h]
    rfl
  · rename_i hstatic
    rw [hstatic]
    split at h
    · rename_i hdata
      rw [hdata, ← show s = t from congrArg Prod.snd h]
      rfl
    · rename_i source column hdata
      rw [hdata]
      change lookupRows w f [source] s = (true, t)
      rw [lookupRows]
      rcases hrow : s.dataRow w f source with ⟨_ | row, u⟩
      · rw [hrow] at h
        cases congrArg Prod.fst h
      · rw [hrow] at h
        exact congrArg (Prod.mk true) (congrArg Prod.snd h)
    · rename_i hdata
      rw [hdata, ← show s = t from congrArg Prod.snd h]
      rfl

theorem gives_renderExpr {v : String} (h : Gives (renderExpr w f expr) s v t) :
    ∃ u vars, lookupRows w f (exprSources w f (s.evals f) expr)
      { s with evals := bump s.evals (f, expr) } = (true, u) ∧ t = { u with vars } := by
  unfold renderExpr at h
  cases hpayload : stripPrefix "payload:" expr with
  | some spec =>
    rw [hpayload] at h
    dsimp only at h
    split at h
    · obtain ⟨-, rfl⟩ := gives_pure.1 h
      have hcode : jsCode expr = none := by simp [jsCode, hpayload]
      refine ⟨t, t.vars, ?_, rfl⟩
      simp [exprSources, bump, hcode, dataSource, hpayload, lookupRows]
    · cases not_gives_throw h
  | none =>
    rw [hpayload] at h
    cases hjs : stripPrefix "js:" expr with
    | some code =>
      have hcode : jsCode expr = some code := by simp [jsCode, hpayload, hjs]
      rw [hjs] at h
      dsimp only at h
      cases hengine : w.script with
      | none =>
        rw [hengine] at h
        cases not_gives_throw h
      | some engine =>
        rw [hengine, gives_mk] at h
        simp only [exprSources, bump, hcode, hengine, Option.isSome_some, if_pos]
        unfold evalScript at h
        dsimp only at h
        split at h
        · rename_i u hrows
          exact ⟨u, _, hrows, (congrArg Prod.snd h).symm⟩
        · cases congrArg Prod.fst h
    | none =>
      have hcode : jsCode expr = none := by simp [jsCode, hpayload, hjs]
      rw [hjs, gives_mk] at h
      rcases hresolve : resolveExpr w f expr s with ⟨_ | value, u⟩
      · rw [hresolve] at h
        split at h <;> rename_i heq <;> cases heq <;> cases congrArg Prod.fst h
      · rw [hresolve] at h
        have hrows := lookupRows_of_resolveExpr hpayload hjs hresolve
        cases value with
        | none => cases congrArg Prod.fst h
        | some v =>
          refine ⟨t, t.vars, ?_, rfl⟩
          rw [← show u = t from congrArg Prod.snd h]
          simpa [exprSources, bump, hcode] using hrows

end Expression

/-! ## Invariants -/

section Invariant

variable {w : World} {http : HttpDefaults} {req : CompiledRequest} {P : Session → Prop}
  (hrow : ∀ f source s row t, s.dataRow w f source = (.ok row, t) → P s → P t)
  (hscript : ∀ s evals vars, P s → P { s with evals, vars })
  (hmessage : ∀ s, P s → P (s.beginMessage w))

include hrow

theorem invariant_lookupRows {f : Field} {rows : List String} {s t : Session}
    (h : lookupRows w f rows s = (true, t)) (hs : P s) : P t := by
  induction rows generalizing s with
  | nil =>
    obtain rfl : s = t := congrArg Prod.snd h
    exact hs
  | cons source rows ih =>
    rw [lookupRows] at h
    split at h
    · rename_i row u hlook
      exact ih h (hrow f source s row u hlook hs)
    · cases congrArg Prod.fst h

include hscript

theorem invariant_renderExpr {f : Field} {expr v : String} {s t : Session}
    (h : Gives (renderExpr w f expr) s v t) (hs : P s) : P t := by
  obtain ⟨u, vars, hrows, rfl⟩ := gives_renderExpr h
  exact hscript u u.evals vars (invariant_lookupRows hrow hrows (hscript s _ s.vars hs))

theorem traces_invariant : Traces w fun _ s t => P s → P t :=
  fun _ _ _ _ _ h => invariant_renderExpr hrow hscript h

include hmessage

theorem invariant_renderFrames {k : ℕ} {values : List CompiledJson} {result : List Json}
    {s t : Session} (h : Gives (renderFrames w k values) s result t) (hs : P s) : P t := by
  induction values generalizing k s result with
  | nil =>
    obtain ⟨-, rfl⟩ := gives_pure.1 h
    exact hs
  | cons value values ih =>
    have hvalue : ∀ u, P u → Gives (do
        let frame ← value.render w.lib.fromStr (renderTemplate w (.frame k))
        let frames ← renderFrames w (k + 1) values
        return frame :: frames) u result t → P t := by
      intro u hu h
      obtain ⟨frame, u', hframe, h⟩ := gives_bind.1 h
      obtain ⟨rest, u'', hrest, h⟩ := gives_bind.1 h
      obtain ⟨-, rfl⟩ := gives_pure.1 h
      exact ih hrest (does_compiled (traces_invariant hrow hscript) value _ _ _ hframe hu)
    rw [renderFrames] at h
    split_ifs at h
    · obtain ⟨_, u, hbegin, h⟩ := gives_bind.1 h
      obtain rfl : s.beginMessage w = u := congrArg Prod.snd hbegin
      exact hvalue _ (hmessage s hs) h
    · exact hvalue s hs h

theorem invariant_prepare {prepared : PreparedRequest} {s t : Session}
    (h : Gives (prepare w http req) s prepared t) (hs : P s) : P t := by
  obtain ⟨messages, u, u', hearly, hmessages, hlate⟩ := does_prepare (traces_invariant hrow hscript) h
  exact hlate (invariant_renderFrames hrow hscript hmessage hmessages (hearly hs))

end Invariant

end Loadr.Request
