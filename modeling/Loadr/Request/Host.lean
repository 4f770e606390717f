import Mathlib.Data.List.Infix
import Loadr.Lib.Duration
import Loadr.Lib.Latest
import Loadr.Request.Compile

/-!
# Requests of scripts

A script sends an HTTP request with `httpRequest`, which builds it from the defaults of the test by
itself; a request step is built by `prepare`.  `prepare` renders templates in the defaults;
`httpRequest` takes them as they stand, and of the default headers that differ only in the case of
their names it sends all.
-/

namespace Loadr.Request

open Loadr.Flow Fallible List

structure HostHttpRequest where
  method : String
  url : String
  headers : List (String × String) := []
  body : Option (List UInt8) := none
  timeoutMs : Option F64 := none
  name : Option String := none

/-- The timeout that a script asks for, unless making a duration of it panics. -/
def hostTimeout (http : HttpDefaults) : Option F64 → Option ℕ
  | none => some http.timeout
  | some ms => Duration.fromSecsF64 (ms / .fin 1000).rounded

def httpRequest (http : HttpDefaults) (req : HostHttpRequest) : Option PreparedRequest :=
  let url := if hasText req.url "://" then req.url
    else match http.baseUrl with
      | some base => joinBase base req.url
      | none => req.url
  (hostTimeout http req.timeoutMs).map fun timeout => {
    name := req.name.getD req.url
    protocol := "http"
    method := req.method.map Char.toUpper
    url
    headers := req.headers.foldl setHeader http.headers
    body := req.body.getD []
    timeout
    followRedirects := http.followRedirects
    maxRedirects := http.maxRedirects
    options := {} }

/-- The step of a plan for the same request, without a body. -/
def HostHttpRequest.step (req : HostHttpRequest) : RequestStep where
  method := some req.method
  url := req.url
  headers := req.headers

/-! ## Texts without expressions -/

/-- There is nothing in the text that looks like an expression. -/
def isPlain (s : String) : Bool := !hasText s "$\x7b"

def plainTemplate (s : String) : Template := ⟨pushLit [] s.toList, s⟩

theorem scanParts_plain (offset : ℕ) (lit rest : List Char) (h : ¬ ['$', '{'] <:+: rest) :
    scanParts offset [] (.text lit) rest = .ok (pushLit [] (lit ++ rest)) := by
  induction rest generalizing offset lit with
  | nil => simp [scanParts]
  | cons c rest ih =>
    have htail : ¬ ['$', '{'] <:+: rest := fun hin => h (hin.trans (List.suffix_cons c rest).isInfix)
    have hnext := ih (offset + c.utf8Size) (lit ++ [c]) htail
    have hskip : scanParts offset [] (.text lit) (c :: rest) =
        scanParts (offset + c.utf8Size) [] (.text (lit ++ [c])) rest := by
      refine scanParts.eq_3 offset [] lit c rest (fun more hc hrest => ?_) (fun more hc hrest => ?_)
      · exact htail ⟨[], more, by rw [hrest]; rfl⟩
      · exact h ⟨[], more, by rw [hc, hrest]; rfl⟩
    rw [hskip, hnext, List.append_assoc, List.singleton_append]

theorem parse_plain {s : String} (h : isPlain s = true) :
    Template.parse s = .ok (plainTemplate s) := by
  have hin : ¬ ['$', '{'] <:+: s.toList := by simpa [isPlain, hasText] using h
  rw [Template.parse, scanParts_plain 0 [] s.toList hin]
  rfl

theorem render_plain (w : World) (f : Field) (s : String) :
    renderTemplate w f (plainTemplate s) = pure s := by
  unfold renderTemplate Template.render plainTemplate pushLit
  split_ifs with hnil
  · have hs : s = "" := String.toList_inj.1 hnil
    rw [hs]
    rfl
  · simp [foldlM_cons, Flow.renderPart]

/-! ## Templates over the test itself -/

/-- The expression refers to the environment, the variables of the run or the secrets. -/
def isStaticExpr (expr : String) : Bool :=
  (stripPrefix "env." expr).isSome || (stripPrefix "vars." expr).isSome ||
    (stripPrefix "secrets." expr).isSome

/-- A template over the environment, the variables of the run and the secrets. -/
def IsStatic (s : String) : Prop :=
  ∃ t, Template.parse s = .ok t ∧ ∀ e ∈ t.expressions, isStaticExpr e = true

instance (s : String) : Decidable (IsStatic s) :=
  match h : Template.parse s with
  | .ok t => decidable_of_iff (∀ e ∈ t.expressions, isStaticExpr e = true) (by simp [IsStatic, h])
  | .error _ => isFalse (by simp [IsStatic, h])

def substitutePart (w : World) (out : String) : Part → Option String
  | .lit text => some (out ++ text)
  | .expr expr => (staticValue w expr).join.map (out ++ ·)

def substitute (w : World) (s : String) : Option String :=
  match Template.parse s with
  | .ok t => t.parts.foldlM (substitutePart w) ""
  | .error _ => none

theorem stripPrefix_eq_some_iff {start s rest : String} :
    stripPrefix start s = some rest ↔ s.toList = start.toList ++ rest.toList := by
  unfold stripPrefix
  split_ifs with h
  · obtain ⟨tail, htail⟩ := isPrefixOf_iff_prefix.1 h
    have hdrop : s.toList.drop start.length = tail := by
      rw [← htail, ← String.length_toList, drop_left]
    rw [Option.some.injEq, hdrop, ← htail, append_cancel_left_eq]
    constructor
    · rintro rfl
      exact String.toList_ofList.symm
    · rintro rfl
      exact String.ofList_toList
  · simp only [false_iff]
    intro heq
    exact h (List.isPrefixOf_iff_prefix.2 ⟨rest.toList, heq.symm⟩)

theorem stripPrefix_eq_none {start s : String} {c d : Char} {cs ds : List Char}
    (hstart : start.toList = c :: cs) (hs : s.toList = d :: ds) (hne : c ≠ d) :
    stripPrefix start s = none := by
  rw [Option.eq_none_iff_forall_ne_some]
  intro rest h
  have heq := stripPrefix_eq_some_iff.1 h
  rw [hstart, hs, cons_append] at heq
  exact hne (List.cons.inj heq).1.symm

/-- An expression over the test itself is neither a payload nor a script. -/
theorem renderExpr_static (w : World) (f : Field) {expr : String} (h : isStaticExpr expr = true) :
    ∃ value e, staticValue w expr = some value ∧ renderExpr w f expr = match value with
      | some v => pure v
      | none => throw e := by
  have hstart : ∃ d ds, expr.toList = d :: ds ∧ d ≠ 'p' ∧ d ≠ 'j' := by
    simp only [isStaticExpr, Bool.or_eq_true, Option.isSome_iff_exists,
      stripPrefix_eq_some_iff] at h
    rcases h with (⟨rest, h⟩ | ⟨rest, h⟩) | ⟨rest, h⟩
    · exact ⟨'e', _, h, by decide, by decide⟩
    · exact ⟨'v', _, h, by decide, by decide⟩
    · exact ⟨'s', _, h, by decide, by decide⟩
  obtain ⟨d, ds, hd, hp, hj⟩ := hstart
  have hpayload : stripPrefix "payload:" expr = none :=
    stripPrefix_eq_none (rfl : _ = 'p' :: _) hd hp.symm
  have hjs : stripPrefix "js:" expr = none := stripPrefix_eq_none (rfl : _ = 'j' :: _) hd hj.symm
  have hvalue : ∃ value, staticValue w expr = some value := by
    unfold staticValue
    simp only [isStaticExpr, Bool.or_eq_true, Option.isSome_iff_exists] at h
    cases henv : stripPrefix "env." expr with
    | some name => exact ⟨_, rfl⟩
    | none =>
      cases hvars : stripPrefix "vars." expr with
      | some name => exact ⟨_, rfl⟩
      | none =>
        obtain ⟨name, hname⟩ : ∃ name, stripPrefix "secrets." expr = some name := by
          simpa [henv, hvars] using h
        exact ⟨w.secrets name, by rw [hname]; rfl⟩
  obtain ⟨value, hvalue⟩ := hvalue
  refine ⟨value, .other ("unresolved template variable `" ++ expr ++ "`"), hvalue, ?_⟩
  unfold renderExpr resolveExpr
  rw [hpayload, hjs, hvalue]
  cases value <;> rfl

theorem gives_foldlM_static (w : World) (f : Field) {parts : List Part}
    (h : ∀ e, Part.expr e ∈ parts → isStaticExpr e = true) (out v : String) (s t : Session) :
    Gives (parts.foldlM (Flow.renderPart (renderExpr w f)) out) s v t ↔
      parts.foldlM (substitutePart w) out = some v ∧ t = s := by
  induction parts generalizing out with
  | nil => simp [eq_comm]
  | cons part parts ih =>
    have hrest := ih fun e he => h e (mem_cons_of_mem part he)
    rw [foldlM_cons, foldlM_cons]
    cases part with
    | lit text =>
      rw [Flow.renderPart, pure_bind, hrest]
      rfl
    | expr e =>
      obtain ⟨value, err, hvalue, hrender⟩ := renderExpr_static w f (h e mem_cons_self)
      rw [Flow.renderPart, hrender, substitutePart, hvalue]
      cases value with
      | none =>
        simp only [gives_bind, not_gives_throw]
        simp
      | some value =>
        rw [pure_bind, pure_bind, hrest]
        rfl

theorem gives_renderStr_static (w : World) (f : Field) {text v : String} {s t : Session}
    (h : IsStatic text) : Gives (renderStr w f text) s v t ↔ substitute w text = some v ∧ t = s := by
  obtain ⟨template, hparse, hstatic⟩ := h
  rw [renderStr, substitute, hparse]
  refine gives_foldlM_static w f (fun e he => hstatic e ?_) "" v s t
  exact mem_filterMap.2 ⟨.expr e, he, rfl⟩

/-! ## The request step -/

theorem compilePairs_plain (what : String) {pairs : List (String × String)}
    (h : ∀ e ∈ pairs, isPlain e.2 = true) :
    compilePairs what pairs = .ok (pairs.map fun e => (e.1, plainTemplate e.2)) := by
  unfold compilePairs
  induction pairs with
  | nil => rfl
  | cons e pairs ih =>
    have hparse : parseTemplate e.2 what = .ok (plainTemplate e.2) :=
      CompiledJson.parseTemplate_ok_iff.2 (parse_plain (h e mem_cons_self))
    rw [mapM_cons, ih fun e' he => h e' (mem_cons_of_mem e he), hparse]
    rfl

def compiledStep (around : Surroundings) (req : HostHttpRequest) : CompiledRequest where
  displayName := req.url
  protocol := inferProtocol around.pluginScheme none req.url
  method := req.method.map Char.toUpper
  url := plainTemplate req.url
  headers := req.headers.map fun e => (e.1, plainTemplate e.2)

theorem compileRequest_plain (around : Surroundings) {req : HostHttpRequest}
    (hurl : isPlain req.url = true) (hheaders : ∀ e ∈ req.headers, isPlain e.2 = true) :
    compileRequest around req.step = .ok (compiledStep around req) := by
  have hparse : parseTemplate req.url "url" = .ok (plainTemplate req.url) :=
    CompiledJson.parseTemplate_ok_iff.2 (parse_plain hurl)
  unfold compileRequest
  simp only [HostHttpRequest.step, hparse, compilePairs_plain "header" hheaders]
  rfl

theorem renderPairs_plain (w : World) (f : Field) (pairs : List (String × String)) :
    renderPairs w f (pairs.map fun e => (e.1, plainTemplate e.2)) = pure pairs := by
  unfold renderPairs
  induction pairs with
  | nil => rfl
  | cons e pairs ih => rw [map_cons, mapM_cons, ih, render_plain, pure_bind, pure_bind, pure_bind]

def renderedUrl (w : World) (http : HttpDefaults) (req : HostHttpRequest) : Option String :=
  if hasText req.url "://" then some req.url
  else match http.baseUrl with
    | none => some req.url
    | some base => (substitute w base).map (joinBase · req.url)

theorem gives_prepareUrl {w : World} {http : HttpDefaults} {around : Surroundings}
    {req : HostHttpRequest} {s t : Session} {url : String}
    (hbase : ∀ base, http.baseUrl = some base → IsStatic base) :
    Gives (prepareUrl w http (compiledStep around req)) s url t ↔
      renderedUrl w http req = some url ∧ t = s := by
  unfold prepareUrl renderedUrl
  rw [show (compiledStep around req).url = plainTemplate req.url from rfl, render_plain, pure_bind]
  split_ifs
  · rw [gives_pure, eq_comm, Option.some.injEq]
  · cases hb : http.baseUrl with
    | none =>
      dsimp only
      rw [gives_pure, eq_comm, Option.some.injEq]
    | some base =>
      simp only [gives_bind, gives_renderStr_static w .base (hbase base hb), gives_pure,
        Option.map_eq_some_iff]
      constructor
      · rintro ⟨v, u, ⟨hv, rfl⟩, rfl, rfl⟩
        exact ⟨⟨v, hv, rfl⟩, rfl⟩
      · rintro ⟨⟨v, hv, rfl⟩, rfl⟩
        exact ⟨v, t, ⟨hv, rfl⟩, rfl, rfl⟩

def renderedDefault (w : World) (header : String × String) : String × String :=
  (header.1, (substitute w header.2).getD "")

theorem gives_defaults {w : World} {headers vs : List (String × String)} {s t : Session}
    (h : ∀ e ∈ headers, IsStatic e.2) :
    Gives (headers.mapM fun header => do
      let value ← renderStr w .headers header.2
      return (header.1, value)) s vs t ↔
      t = s ∧ (∀ e ∈ headers, substitute w e.2 ≠ none) ∧ vs = headers.map (renderedDefault w) := by
  induction headers generalizing vs s t with
  | nil => simp [and_comm]
  | cons e headers ih =>
    have hrest := fun {vs s t} => @ih vs s t fun e' he => h e' (mem_cons_of_mem e he)
    rw [mapM_cons]
    simp only [gives_bind, gives_renderStr_static w .headers (h e mem_cons_self), hrest,
      gives_pure, forall_mem_cons, map_cons, renderedDefault]
    constructor
    · rintro ⟨_, _, ⟨v, _, ⟨hv, rfl⟩, rfl, rfl⟩, _, _, ⟨rfl, hall, rfl⟩, rfl, rfl⟩
      exact ⟨rfl, ⟨by simp [hv], hall⟩, by simp [hv]⟩
    · rintro ⟨rfl, ⟨he, hall⟩, rfl⟩
      obtain ⟨v, hv⟩ := Option.ne_none_iff_exists'.1 he
      exact ⟨_, t, ⟨v, t, ⟨hv, rfl⟩, rfl, rfl⟩, _, t, ⟨rfl, hall, rfl⟩, by simp [hv], rfl⟩

theorem prepare_plain (w : World) (http : HttpDefaults) (around : Surroundings)
    (req : HostHttpRequest) :
    prepare w http (compiledStep around req) = do
      let url ← prepareUrl w http (compiledStep around req)
      let defaults ← http.headers.mapM fun header => do
        let value ← renderStr w .headers header.2
        return (header.1, value)
      return {
        name := req.url
        protocol := inferProtocol around.pluginScheme none req.url
        method := req.method.map Char.toUpper
        url
        headers := (defaults ++ req.headers).foldl setHeader []
        body := []
        timeout := http.timeout
        followRedirects := http.followRedirects
        maxRedirects := http.maxRedirects
        options := {} } := by
  have hheaders : prepareHeaders w http (compiledStep around req) = do
      let defaults ← http.headers.mapM fun header => do
        let value ← renderStr w .headers header.2
        return (header.1, value)
      return (defaults ++ req.headers).foldl setHeader [] := by
    unfold prepareHeaders
    rw [show (compiledStep around req).headers = req.headers.map fun e => (e.1, plainTemplate e.2)
      from rfl, renderPairs_plain]
    simp only [pure_bind]
  unfold prepare
  rw [hheaders]
  simp only [bind_assoc, pure_bind]
  rfl

/-! ## Header lists -/

def headerKey (header : String × String) : List Char := header.1.toList.map Char.toLower

/-- No header of the list has the name of this one. -/
def isKept (headers : List (String × String)) (header : String × String) : Bool :=
  headers.all fun other => !eqIgnoreAsciiCase header.1 other.1

theorem not_eqIgnoreAsciiCase (a b : String × String) :
    (!eqIgnoreAsciiCase a.1 b.1) = decide (headerKey a ≠ headerKey b) := decide_not.symm

theorem setHeader_eq_put : setHeader = Latest.put headerKey := by
  simp only [funext_iff, setHeader, Latest.put, not_eqIgnoreAsciiCase, implies_true]

theorem isKept_eq_isFree : isKept = Latest.isFree headerKey := by
  simp only [funext_iff, isKept, Latest.isFree, not_eqIgnoreAsciiCase, implies_true]

theorem foldl_setHeader_eq_iff {g : String × String → String × String} (hg : ∀ e, (g e).1 = e.1)
    (defaults headers : List (String × String)) :
    (defaults.map g ++ headers).foldl setHeader [] = headers.foldl setHeader defaults ↔
      (∀ e ∈ defaults.filter (isKept headers), g e = e) ∧
        ((defaults.filter (isKept headers)).map headerKey).Nodup := by
  have hkey : headerKey ∘ g = headerKey := funext fun e => by
    rw [Function.comp_apply, headerKey, hg, headerKey]
  have hfree : Latest.isFree headerKey headers =
      (fun key => headers.all fun other => decide (key ≠ headerKey other)) ∘ headerKey := rfl
  have hmap : (defaults.map g).filter (isKept headers) =
      (defaults.filter (isKept headers)).map g := by
    rw [filter_map, isKept_eq_isFree, hfree, Function.comp_assoc, hkey]
  rw [setHeader_eq_put, Latest.foldl_put headers defaults]
  change Latest.latest headerKey (defaults.map g ++ headers) = _ ↔ _
  rw [Latest.latest_append, append_cancel_right_eq, hfree, Latest.filter_latest, ← hfree,
    ← isKept_eq_isFree, hmap, Latest.latest_eq_iff (by rw [map_map, hkey])]
  rw [and_congr_left_iff]
  intro _
  conv_lhs => rhs; rw [← map_id (defaults.filter (isKept headers))]
  exact map_inj_left

theorem joinBase_inj {a b url : String} :
    joinBase a url = joinBase b url ↔ trimEndMatches '/' a = trimEndMatches '/' b := by
  constructor
  · intro h
    have h' := congrArg String.toList h
    simp only [joinBase, String.toList_append, append_cancel_right_eq] at h'
    exact String.toList_inj.1 h'
  · intro h
    rw [joinBase, h, joinBase]

/-- A script and a request step without a body build the same URL and headers, the defaults being
templates over the test itself, exactly if the base URL that is needed renders to itself up to
slashes at its end, every default header renders, and those that the request does not override render
to themselves and have different names. -/
theorem script_request_agrees (w : World) (http : HttpDefaults) (around : Surroundings)
    (req : HostHttpRequest) (s : Session) (compiled : CompiledRequest) (sent : PreparedRequest)
    (hbase : ∀ base, http.baseUrl = some base → IsStatic base)
    (hdefaults : ∀ e ∈ http.headers, IsStatic e.2) (hurl : isPlain req.url = true)
    (hheaders : ∀ e ∈ req.headers, isPlain e.2 = true)
    (hcompiled : compileRequest around req.step = .ok compiled)
    (hsent : httpRequest http req = some sent) :
    (∃ prepared t, Gives (prepare w http compiled) s prepared t ∧ prepared.url = sent.url ∧
      prepared.headers = sent.headers) ↔
      (hasText req.url "://" = false → ∀ base, http.baseUrl = some base →
        ∃ v, substitute w base = some v ∧ trimEndMatches '/' v = trimEndMatches '/' base) ∧
      (∀ e ∈ http.headers, substitute w e.2 ≠ none) ∧
      (∀ e ∈ http.headers.filter (isKept req.headers), substitute w e.2 = some e.2) ∧
      ((http.headers.filter (isKept req.headers)).map headerKey).Nodup := by
  obtain rfl : compiledStep around req = compiled :=
    Except.ok.inj ((compileRequest_plain around hurl hheaders).symm.trans hcompiled)
  obtain ⟨timeout, -, rfl⟩ := Option.map_eq_some_iff.1 hsent
  rw [prepare_plain]
  -- The URL, then the headers.
  have hurls : renderedUrl w http req = some (if hasText req.url "://" then req.url
      else match http.baseUrl with
        | some base => joinBase base req.url
        | none => req.url) ↔
      (hasText req.url "://" = false → ∀ base, http.baseUrl = some base →
        ∃ v, substitute w base = some v ∧ trimEndMatches '/' v = trimEndMatches '/' base) := by
    unfold renderedUrl
    cases hasText req.url "://" with
    | true => simp
    | false =>
      cases http.baseUrl with
      | none => simp
      | some base => simp [joinBase_inj]
  have hsame : (∀ e ∈ http.headers, substitute w e.2 ≠ none) →
      ((http.headers.map (renderedDefault w) ++ req.headers).foldl setHeader [] =
        req.headers.foldl setHeader http.headers ↔
      (∀ e ∈ http.headers.filter (isKept req.headers), substitute w e.2 = some e.2) ∧
        ((http.headers.filter (isKept req.headers)).map headerKey).Nodup) := by
    intro hall
    rw [foldl_setHeader_eq_iff fun e => (rfl : (renderedDefault w e).1 = e.1)]
    refine and_congr_left fun _ => forall₂_congr fun e he => ?_
    obtain ⟨v, hv⟩ := Option.ne_none_iff_exists'.1 (hall e (mem_filter.1 he).1)
    rw [renderedDefault, hv, Option.getD_some, Option.some.injEq]
    exact ⟨fun h => congrArg Prod.snd h, fun h => by rw [h]⟩
  rw [← hurls]
  simp only [gives_bind, gives_pure, gives_prepareUrl hbase, gives_defaults hdefaults]
  constructor
  · rintro ⟨_, _, ⟨url, _, ⟨hgiven, rfl⟩, _, _, ⟨rfl, hall, rfl⟩, rfl, rfl⟩, hsentUrl, hsentHeaders⟩
    exact ⟨hsentUrl ▸ hgiven, hall, (hsame hall).1 hsentHeaders⟩
  · rintro ⟨hgiven, hall, hkept⟩
    exact ⟨_, s, ⟨_, s, ⟨hgiven, rfl⟩, _, s, ⟨rfl, hall, rfl⟩, rfl, rfl⟩, rfl, (hsame hall).2 hkept⟩

/-! ## An instance -/

section Instance

def noLibrary : Library where
  print _ := ""
  toVec _ := []
  fromStr _ := none
  generate _ := .error ""
  fromUtf8Lossy _ := ""
  decodeBase64 _ := .error ""

def noMatchers : Matchers where
  regex _ := .error ""
  jsonPath _ := .error ""
  xpathEval _ _ := .error ""
  fromSlice _ := none
  debug s := s
  fixed _ _ := ""

def hostWorld : World where
  lib := noLibrary
  env name := if name = "HOST" then some "api" else none
  supply _ := .unshuffled (.ok .exhausted)

def noSurroundings : Surroundings where
  readFile path := .error (.io path "")
  fileName _ := none
  matchers := noMatchers

def health : HostHttpRequest := { method := "get", url := "/health" }

def hostDefaults : HttpDefaults where
  baseUrl := some "http://$\x7benv.HOST\x7d"
  headers := [("X-Client", "a"), ("x-client", "b")]

def preparedStep (http : HttpDefaults) (req : HostHttpRequest) : Option PreparedRequest :=
  (compileRequest noSurroundings req.step).toOption.bind fun compiled =>
    ((prepare hostWorld http compiled).run.run {}).1.toOption

def plainDefaults : HttpDefaults where
  baseUrl := some "http://api/"
  headers := [("X-Client", "a")]

theorem script_request_agrees_health :
    ∃ prepared t, Gives (prepare hostWorld plainDefaults (compiledStep noSurroundings health)) {}
      prepared t ∧ prepared.url = "http://api/health" ∧ prepared.headers = [("X-Client", "a")] := by
  have hbase : ∀ base, plainDefaults.baseUrl = some base → IsStatic base := by
    rintro base hbase
    cases hbase
    decide +kernel
  have hrendered : ∀ base, plainDefaults.baseUrl = some base →
      ∃ v, substitute hostWorld base = some v ∧ trimEndMatches '/' v = trimEndMatches '/' base := by
    rintro base hbase
    cases hbase
    exact ⟨"http://api/", by decide +kernel, rfl⟩
  have hcompiled : compileRequest noSurroundings health.step =
      .ok (compiledStep noSurroundings health) :=
    compileRequest_plain noSurroundings (by decide +kernel) (by decide +kernel)
  have hagrees := (script_request_agrees hostWorld plainDefaults noSurroundings health {}
    (compiledStep noSurroundings health) _ hbase (by decide +kernel) (by decide +kernel)
    (by decide +kernel) hcompiled rfl).2
    ⟨fun _ => hrendered, by decide +kernel, by decide +kernel, by decide +kernel⟩
  obtain ⟨prepared, t, hgives, hurl, hheaders⟩ := hagrees
  refine ⟨prepared, t, hgives, hurl.trans ?_, hheaders.trans ?_⟩ <;> decide +kernel

/-- A script sends the base URL with its template, and both of two default headers with one name. -/
theorem base_sent_unrendered :
    IsStatic "http://$\x7benv.HOST\x7d" ∧ isPlain health.url = true ∧
      ((httpRequest hostDefaults health).map fun r => (r.url, r.headers)) =
        some ("http://$\x7benv.HOST\x7d/health", [("X-Client", "a"), ("x-client", "b")]) ∧
      ((preparedStep hostDefaults health).map fun r => (r.url, r.headers)) =
        some ("http://api/health", [("x-client", "b")]) := by
  refine ⟨?_, ?_, ?_, ?_⟩ <;> decide +kernel

end Instance

end Loadr.Request
