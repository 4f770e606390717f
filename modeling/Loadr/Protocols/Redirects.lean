import Loadr.Lib.Fallible
import Loadr.Protocols.Http

/-!
# Redirects

What the handler sends along a chain of redirects.  Every hop is built from the headers of the
original request, so the credentials and the host written for the original URL go wherever the
servers redirect to, and a redirect is followed whatever its scheme is.  The number of requests, the
methods and the bodies follow the rules.
-/

namespace Loadr.Http

open List

/-! ## Headers that survive -/

namespace Headers

variable {headers : Headers} {name other value : String} {h : String × String}

def named (headers : Headers) (name : String) : Headers := headers.filter (·.1 = name)

theorem mem_named : h ∈ headers.named h.1 ↔ h ∈ headers := by simp [named]

theorem get_eq_named : headers.get name = (headers.named name).head?.map (·.2) := by
  rw [named, head?_filter, get]

theorem contains_of_named (h : headers.named name ≠ []) : headers.contains name = true := by
  obtain ⟨found, hfound⟩ := exists_mem_of_ne_nil _ h
  obtain ⟨hmem, hname⟩ := mem_filter.1 hfound
  exact any_eq_true.2 ⟨found, hmem, hname⟩

theorem named_insert_of_ne (hne : other ≠ name) :
    (headers.insert name value).named other = headers.named other := by
  have hfilter : filter (fun h : String × String => h.1 = other && h.1 ≠ name) headers =
      headers.named other := by
    refine filter_congr fun h _ => ?_
    by_cases heq : h.1 = other
    · simp [heq, hne]
    · simp [heq]
  simpa [named, Headers.insert, filter_append, hne.symm] using hfilter

theorem named_insert : (headers.insert name value).named name = [(name, value)] := by
  simp [named, Headers.insert, filter_append]

theorem named_insertNew_of_ne (hne : other ≠ name) :
    (headers.insertNew name value).named other = headers.named other := by
  unfold insertNew
  split
  · rfl
  · exact named_insert_of_ne hne

end Headers

/-- The headers written for the URL of a request: its credentials, and the host. -/
def credentialNames : List String := ["authorization", "proxy-authorization", "cookie", "host"]

def credentials (web : Web) (request : PreparedRequest) : Headers :=
  ((explicitHeaders web request.headers).toOption.getD []).filter (·.1 ∈ credentialNames)

/-- The request sent has the header, to which cookies may have been added. -/
def Sent.Carries (sent : Sent) (header : String × String) : Prop :=
  ∃ value, (header.1, value) ∈ sent.headers ∧ header.2.toList <+: value.toList

/-- The jar's cookies take the place of what is written, as that is no text. -/
def overwrites (web : Web) (request : PreparedRequest) (cookies : String) : Bool :=
  !((credentials web request).get "cookie").any web.isText && (web.checkValue cookies).isOk

/-- Some credential header stays in the request for a hop. -/
def Survives (web : Web) (request : PreparedRequest) (hop : Hop) : Prop :=
  ∃ header ∈ credentials web request, header.1 = "cookie" →
    ∀ cookies ∈ hop.cookies, overwrites web request cookies = true →
      header.2.toList <+: cookies.toList

section Build

variable {web : Web} {handler : HttpHandler} {request : PreparedRequest} {hop : Hop} {url : Url}
  {method name : String} {body : List UInt8} {sent : Sent} {headers : Headers}

theorem mapError_eq_ok {α : Type} {x : Except String α} {f : String → String} {a : α} :
    x.mapError f = .ok a ↔ x = .ok a := by
  cases x <;> simp [Except.mapError]

theorem named_hostHeader {h2 : Bool} {built : Headers}
    (hbuilt : hostHeader web h2 url headers = .ok built)
    (hname : name ≠ "host" ∨ headers.named name ≠ []) : built.named name = headers.named name := by
  unfold hostHeader at hbuilt
  split at hbuilt
  · cases hbuilt
    rfl
  · rename_i hcontains
    simp only [Fallible.bind_ok_iff, mapError_eq_ok] at hbuilt
    obtain ⟨-, -, hbuilt⟩ := hbuilt
    cases hbuilt
    refine Headers.named_insert_of_ne (hname.elim id fun hmem hhost => hcontains ?_)
    rw [← hhost, Headers.contains_of_named hmem, Bool.or_true]

theorem ne_of_credential (other : String) (hname : name ∈ credentialNames)
    (hother : other ∉ credentialNames) : name ≠ other :=
  fun heq => hother (heq ▸ hname)

theorem named_defaultHeaders {h2 : Bool} (hname : name ∈ credentialNames) :
    (defaultHeaders handler h2 body headers).named name = headers.named name := by
  have hagent := ne_of_credential "user-agent" hname (by decide)
  have hencoding := ne_of_credential "accept-encoding" hname (by decide)
  have hlength := ne_of_credential "content-length" hname (by decide)
  have hconnection := ne_of_credential "connection" hname (by decide)
  unfold defaultHeaders
  dsimp only
  split_ifs <;> simp only [Headers.named_insert_of_ne, Headers.named_insertNew_of_ne, ne_eq,
    hagent, hencoding, hlength, hconnection, not_false_eq_true]

theorem named_traceHeader {traceparent : String} (hname : name ∈ credentialNames) :
    (traceHeader web handler traceparent headers).named name = headers.named name := by
  have hne := ne_of_credential "traceparent" hname (by decide)
  unfold traceHeader
  split
  · split
    · exact Headers.named_insertNew_of_ne hne
    · rfl
  · rfl

theorem named_cookieHeader {cookies : Option String} (hname : name ≠ "cookie") :
    (cookieHeader web cookies headers).named name = headers.named name := by
  unfold cookieHeader
  cases cookies with
  | none => rfl
  | some cookies =>
    dsimp only
    split
    · exact Headers.named_insert_of_ne hname
    · rfl

theorem named_overwritten {jar : String} (htext : (headers.get "cookie").any web.isText = false)
    (hvalid : (web.checkValue jar).isOk = true) :
    (cookieHeader web (some jar) headers).named "cookie" = [("cookie", jar)] := by
  have hmerged : (headers.get "cookie").filter web.isText = none := by
    cases hget : headers.get "cookie" <;> simp_all
  unfold cookieHeader
  dsimp only
  rw [hmerged]
  cases hcheck : web.checkValue jar with
  | ok => exact Headers.named_insert
  | error e => simp [hcheck, Except.isOk, Except.toBool] at hvalid

theorem exists_cookie_kept {cookies : Option String} {header : String × String}
    (hmem : header ∈ headers.named "cookie")
    (hjar : ∀ jar ∈ cookies, (headers.get "cookie").any web.isText = false →
      (web.checkValue jar).isOk = true → header.2.toList <+: jar.toList) :
    ∃ kept ∈ headers.named "cookie", ∃ h ∈ (cookieHeader web cookies headers).named "cookie",
      kept.2.toList <+: h.2.toList := by
  have hsame {built : Headers} (heq : built.named "cookie" = headers.named "cookie") :
      ∃ kept ∈ headers.named "cookie", ∃ h ∈ built.named "cookie",
        kept.2.toList <+: h.2.toList :=
    ⟨header, hmem, header, heq ▸ hmem, prefix_rfl⟩
  obtain ⟨first, rest, hcons⟩ := exists_cons_of_ne_nil (ne_nil_of_mem hmem)
  have hget : headers.get "cookie" = some first.2 := by
    rw [Headers.get_eq_named, hcons]
    rfl
  have hfirst : first ∈ headers.named "cookie" := hcons ▸ mem_cons_self
  unfold cookieHeader
  cases cookies with
  | none => exact hsame rfl
  | some jar =>
    cases htext : web.isText first.2 with
    | true =>
      simp only [hget, Option.filter_some, htext, if_true]
      cases web.checkValue (first.2 ++ "; " ++ jar) with
      | error e => exact hsame rfl
      | ok =>
        refine ⟨first, hfirst, _, Headers.named_insert ▸ mem_singleton_self _, ?_⟩
        rw [String.toList_append, String.toList_append, append_assoc]
        exact prefix_append _ _
    | false =>
      simp only [hget, Option.filter_some, htext, Bool.false_eq_true, if_false]
      cases hcheck : web.checkValue jar with
      | error e => exact hsame rfl
      | ok =>
        refine ⟨header, hmem, _, Headers.named_insert ▸ mem_singleton_self _, hjar jar rfl ?_ ?_⟩
        · simp [hget, htext]
        · simp [hcheck, Except.isOk, Except.toBool]

theorem exists_mem_traceHeader_iff {traceparent : String} {header : String × String}
    (hname : header.1 ∈ credentialNames) :
    (∃ value, (header.1, value) ∈ traceHeader web handler traceparent headers ∧
      header.2.toList <+: value.toList) ↔
    ∃ h ∈ headers.named header.1, header.2.toList <+: h.2.toList := by
  rw [← @named_traceHeader web handler _ _ traceparent hname]
  constructor
  · rintro ⟨value, hvalue, hprefix⟩
    exact ⟨(header.1, value), Headers.mem_named.2 hvalue, hprefix⟩
  · rintro ⟨h, hmem, hprefix⟩
    obtain ⟨hmem, heq⟩ := mem_filter.1 hmem
    exact ⟨h.2, by simpa [← of_decide_eq_true heq] using hmem, hprefix⟩

theorem named_credentials (hexplicit : explicitHeaders web request.headers = .ok headers)
    (hname : name ∈ credentialNames) :
    (credentials web request).named name = headers.named name := by
  rw [credentials, hexplicit, Headers.named, filter_filter]
  refine filter_congr fun h _ => ?_
  by_cases heq : h.1 = name
  · simp [heq, hname]
  · simp [heq]

theorem exists_carries_iff
    (hsent : buildRequest web handler request hop url method body = .ok sent) :
    (∃ header ∈ credentials web request, sent.Carries header) ↔ Survives web request hop := by
  simp only [buildRequest, Fallible.bind_ok_iff] at hsent
  obtain ⟨uri, -, explicit, hexplicit, withHost, hhost, hsent⟩ := hsent
  cases hsent
  have hcredentials {h : String × String} :
      h ∈ credentials web request ↔ h ∈ explicit ∧ h.1 ∈ credentialNames := by
    simp [credentials, hexplicit, Except.toOption]
  -- The headers to which the cookies are added.
  generalize hbuilt : defaultHeaders handler hop.h2 body withHost = built
  have hnamed {name : String} (hname : name ∈ credentialNames)
      (h : name ≠ "host" ∨ Headers.named explicit name ≠ []) :
      built.named name = Headers.named explicit name := by
    rw [← hbuilt, named_defaultHeaders hname, named_hostHeader hhost h]
  have hcookie : built.named "cookie" = (credentials web request).named "cookie" := by
    rw [hnamed (by decide) (.inl (by decide)), named_credentials hexplicit (by decide)]
  have hget : built.get "cookie" = (credentials web request).get "cookie" := by
    rw [Headers.get_eq_named, Headers.get_eq_named, hcookie]
  constructor
  · rintro ⟨header, hmem, hsent⟩
    obtain ⟨h, hh, hprefix⟩ := (exists_mem_traceHeader_iff (hcredentials.1 hmem).2).1 hsent
    refine ⟨header, hmem, fun heq jar hjar hover => ?_⟩
    obtain ⟨htext, hvalid⟩ := Bool.and_eq_true_iff.1 hover
    rw [Option.mem_def.1 hjar, heq, named_overwritten (hget ▸ by simpa using htext) hvalid,
      mem_singleton] at hh
    rwa [hh] at hprefix
  · rintro ⟨header, hmem, hsurvives⟩
    by_cases heq : header.1 = "cookie"
    · have hheader : header ∈ built.named "cookie" :=
        hcookie ▸ mem_filter.2 ⟨hmem, by simp [heq]⟩
      obtain ⟨kept, hkept, hh⟩ := @exists_cookie_kept web _ hop.cookies _ hheader
        fun jar hjar htext hvalid =>
          hsurvives heq jar hjar (by simp [overwrites, ← hget, htext, hvalid])
      rw [hcookie] at hkept
      obtain ⟨hkept, hname⟩ := mem_filter.1 hkept
      refine ⟨kept, hkept, (exists_mem_traceHeader_iff (hcredentials.1 hkept).2).2 ?_⟩
      rwa [of_decide_eq_true hname]
    · obtain ⟨hexplicit, hname⟩ := hcredentials.1 hmem
      refine ⟨header, hmem, (exists_mem_traceHeader_iff hname).2 ⟨header, ?_, prefix_rfl⟩⟩
      have hmem := Headers.mem_named.2 hexplicit
      rwa [named_cookieHeader heq, hnamed hname (.inr (ne_nil_of_mem hmem))]

end Build

/-! ## The chain of hops -/

/-- The request can be built for the URL: it has valid headers, host and target. -/
def buildable (web : Web) (handler : HttpHandler) (request : PreparedRequest) (hop : Hop)
    (url : Url) : Bool :=
  (requestUri web handler hop.h2 url).isOk &&
    ((explicitHeaders web request.headers).bind (hostHeader web hop.h2 url)).isOk

def Reply.connects : Reply → Bool
  | .unreachable _ => false
  | _ => true

def accepts (web : Web) (handler : HttpHandler) (request : PreparedRequest) (hop : Hop)
    (url : Url) : Bool :=
  url.hostPort.isOk && hop.reply.connects && buildable web handler request hop url

def redirectTarget (web : Web) (request : PreparedRequest) (url : Url) (reply : Reply) :
    Option (ℕ × Url) :=
  match reply with
  | .response status headers none =>
    if isRedirect status && request.followRedirects then
      (headers.header "location").bind fun location =>
        (web.join url location).toOption.map (status, ·)
    else none
  | _ => none

/-- The hops that take a request as the replies redirect it, and their URLs. -/
def reached (web : Web) (handler : HttpHandler) (request : PreparedRequest) :
    ℕ → Url → List Hop → List (Hop × Url)
  | _, _, [] => []
  | left, url, hop :: hops =>
    if accepts web handler request hop url then
      (hop, url) :: match left, redirectTarget web request url hop.reply with
        | left + 1, some (_, target) => reached web handler request left target hops
        | _, _ => []
    else []

section Chain

variable {web : Web} {handler : HttpHandler} {request : PreparedRequest} {hop : Hop} {url : Url}
  {method : String} {body : List UInt8} {sent : Sent}

theorem accepts_eq (method : String) (body : List UInt8) :
    accepts web handler request hop url = (url.hostPort.isOk && hop.reply.connects &&
      (buildRequest web handler request hop url method body).isOk) := by
  unfold accepts
  congr 1
  unfold buildRequest buildable
  cases requestUri web handler hop.h2 url with
  | error e => rfl
  | ok uri =>
    cases explicitHeaders web request.headers with
    | error e => rfl
    | ok headers =>
      simp only [bind, Except.bind]
      cases hostHeader web hop.h2 url headers <;> rfl

theorem buildRequest_fields (h : buildRequest web handler request hop url method body = .ok sent) :
    sent.url = url ∧ sent.method = method ∧ sent.body = body := by
  simp only [buildRequest, Fallible.bind_ok_iff] at h
  obtain ⟨_, -, _, -, _, -, h⟩ := h
  cases h
  exact ⟨rfl, rfl, rfl⟩

/-- Where the handler goes on to after an exchange. -/
def followed (web : Web) (request : PreparedRequest) (url : Url) :
    Option (Except String Response) → Option (ℕ × Url)
  | some (.ok response) => (redirectLocation request response).join.bind fun location =>
      (web.join url location).toOption.map (response.status, ·)
  | _ => none

theorem oneRequest_eq (method : String) (body : List UInt8) :
    let exchange := oneRequest web handler request hop url method body
    if accepts web handler request hop url then
      (∃ sent, buildRequest web handler request hop url method body = .ok sent ∧
        exchange.sent = some sent) ∧
        followed web request url exchange.result = redirectTarget web request url hop.reply
    else exchange.sent = none ∧ followed web request url exchange.result = none := by
  rw [accepts_eq method body]
  simp only [oneRequest, redirectTarget]
  cases url.hostPort with
  | error e => exact ⟨rfl, rfl⟩
  | ok hostPort =>
    cases buildRequest web handler request hop url method body with
    | error e => cases hop.reply <;> exact ⟨rfl, rfl⟩
    | ok sent =>
      cases hop.reply with
      | unreachable message => exact ⟨rfl, rfl⟩
      | lost | timedOut => exact ⟨⟨sent, rfl, rfl⟩, rfl⟩
      | response status headers readError =>
        refine ⟨⟨sent, rfl, rfl⟩, ?_⟩
        cases readError with
        | some e => simp [followed, redirectLocation]
        | none =>
          simp only [followed, redirectLocation, Option.isNone_none, Bool.true_and]
          split <;> rfl

theorem run_cons {left : ℕ} {hops : List Hop} :
    (run web handler request left url method body (hop :: hops)).1 =
      (oneRequest web handler request hop url method body).sent.toList ++
        match left, followed web request url
          (oneRequest web handler request hop url method body).result with
        | left + 1, some (status, target) =>
          (run web handler request left target (redirectedTo status method body).1
            (redirectedTo status method body).2 hops).1
        | _, _ => [] := by
  rw [run]
  cases (oneRequest web handler request hop url method body).result with
  | none => simp [followed]
  | some result =>
    cases result with
    | error e => simp [followed]
    | ok response =>
      simp only [followed]
      cases redirectLocation request response with
      | none => simp
      | some location =>
        cases left with
        | zero => simp
        | succ left =>
          cases location with
          | none => simp
          | some location => cases hjoin : web.join url location <;> simp [hjoin, Except.toOption]

/-- The rule for the method and the body of a request that follows a redirect. -/
structure Redirected (status : ℕ) (first second : Sent) : Prop where
  switched : status = 301 ∨ status = 302 ∨ status = 303 → first.method ≠ "HEAD" →
    second.method = "GET" ∧ second.body = []
  kept : status = 307 ∨ status = 308 ∨ first.method = "HEAD" →
    second.method = first.method ∧ second.body = first.body

theorem redirected_of_fields {status : ℕ} {first second : Sent}
    (h : (second.method, second.body) = redirectedTo status first.method first.body) :
    Redirected status first second := by
  unfold redirectedTo at h
  split at h
  · rename_i hswitch
    refine ⟨fun _ _ => by simpa using h, fun hkept => ?_⟩
    rcases hkept with rfl | rfl | hhead
    · omega
    · omega
    · cases hswitch.2.2 hhead
  · rename_i hkeep
    refine ⟨fun hstatus hhead => absurd ⟨?_, ?_, hhead⟩ hkeep, fun _ => by simpa using h⟩
    · omega
    · omega

/-- What holds of a chain of requests: it starts with this method and body, and each request follows
the redirect of the one before. -/
structure Chained (method : String) (body : List UInt8) (hops : List Hop) (sent : List Sent) :
    Prop where
  first : ∀ s, sent[0]? = some s → s.method = method ∧ s.body = body
  next : ∀ i s s', sent[i]? = some s → sent[i + 1]? = some s' →
    ∃ hop status headers, hops[i]? = some hop ∧ hop.reply = .response status headers none ∧
      isRedirect status = true ∧ Redirected status s s'

theorem redirectTarget_eq_some {reply : Reply} {status : ℕ} {target : Url}
    (h : redirectTarget web request url reply = some (status, target)) :
    ∃ headers, reply = .response status headers none ∧ isRedirect status = true := by
  unfold redirectTarget at h
  split at h
  · split at h
    · rename_i status' headers hredirect
      obtain ⟨location, -, htarget⟩ := Option.bind_eq_some_iff.1 h
      obtain ⟨_, -, heq⟩ := Option.map_eq_some_iff.1 htarget
      cases heq
      exact ⟨headers, rfl, (Bool.and_eq_true_iff.1 hredirect).1⟩
    · cases h
  · cases h

/-- Induction along the chain of hops: nothing is sent, or one request that is not redirected, or a
request and then what its redirect makes the loop send. -/
theorem run_induction
    {P : ℕ → Url → String → List UInt8 → List Hop → List Sent → Prop}
    (ended : ∀ left url method body, P left url method body [] [])
    (refused : ∀ left url method body hop hops, accepts web handler request hop url = false →
      P left url method body (hop :: hops) [])
    (last : ∀ left url method body hop hops sent, accepts web handler request hop url = true →
      buildRequest web handler request hop url method body = .ok sent →
      (left = 0 ∨ redirectTarget web request url hop.reply = none) →
      P left url method body (hop :: hops) [sent])
    (redirected : ∀ left url method body hop hops sent status target rest,
      accepts web handler request hop url = true →
      buildRequest web handler request hop url method body = .ok sent →
      redirectTarget web request url hop.reply = some (status, target) →
      P left target (redirectedTo status method body).1 (redirectedTo status method body).2 hops
        rest →
      P (left + 1) url method body (hop :: hops) (sent :: rest))
    (left : ℕ) (url : Url) (method : String) (body : List UInt8) (hops : List Hop) :
    P left url method body hops (run web handler request left url method body hops).1 := by
  induction hops generalizing left url method body with
  | nil =>
    rw [run]
    exact ended left url method body
  | cons hop hops ih =>
    have hone := @oneRequest_eq web handler request hop url method body
    rw [run_cons]
    cases haccepts : accepts web handler request hop url with
    | false =>
      rw [haccepts] at hone
      rw [hone.1, hone.2]
      cases left <;> exact refused _ url method body hop hops haccepts
    | true =>
      rw [haccepts] at hone
      obtain ⟨⟨sent, hbuilt, hsent⟩, htarget⟩ := hone
      rw [hsent, htarget]
      cases left with
      | zero => exact last 0 url method body hop hops sent haccepts hbuilt (.inl rfl)
      | succ left =>
        cases htarget : redirectTarget web request url hop.reply with
        | none => exact last _ url method body hop hops sent haccepts hbuilt (.inr htarget)
        | some target =>
          exact redirected left url method body hop hops sent target.1 target.2 _ haccepts hbuilt
            htarget (ih left target.2 _ _)

section

variable (left : ℕ) (url : Url) (method : String) (body : List UInt8)

theorem run_length (hops : List Hop) :
    (run web handler request left url method body hops).1.length ≤ left + 1 := by
  refine run_induction (P := fun left _ _ _ _ sent => sent.length ≤ left + 1) ?_ ?_ ?_ ?_
    left url method body hops
  · simp
  · simp
  · simp
  · intro left _ _ _ _ _ _ _ _ rest _ _ _ ih
    simpa using ih

theorem run_chained
    (hops : List Hop) :
    Chained method body hops (run web handler request left url method body hops).1 := by
  refine run_induction (P := fun _ _ method body hops sent => Chained method body hops sent)
    ?_ ?_ ?_ ?_ left url method body hops
  · exact fun _ _ _ _ => ⟨by simp, by simp⟩
  · exact fun _ _ _ _ _ _ _ => ⟨by simp, by simp⟩
  · intro _ _ method body _ _ sent _ hbuilt _
    exact ⟨by simp [buildRequest_fields hbuilt], by simp⟩
  · intro _ _ method body hop hops sent status target rest _ hbuilt htarget ih
    obtain ⟨-, hmethod, hbody⟩ := buildRequest_fields hbuilt
    refine ⟨by simp [hmethod, hbody], fun i s s' hs hs' => ?_⟩
    cases i with
    | zero =>
      obtain ⟨headers, hreply, hredirect⟩ := redirectTarget_eq_some htarget
      obtain rfl : sent = s := by simpa using hs
      refine ⟨hop, status, headers, rfl, hreply, hredirect, redirected_of_fields ?_⟩
      rw [hmethod, hbody]
      exact Prod.ext (ih.first s' hs').1 (ih.first s' hs').2
    | succ i => exact ih.next i s s' hs hs'

/-- The requests that are sent are those built for the hops reached, one for each. -/
theorem run_reached (hops : List Hop) :
    Forall₂ (fun sent taken => ∃ method body,
        buildRequest web handler request taken.1 taken.2 method body = .ok sent)
      (run web handler request left url method body hops).1
      (reached web handler request left url hops) := by
  refine run_induction
    (P := fun left url _ _ hops sent => Forall₂ (fun sent taken => ∃ method body,
        buildRequest web handler request taken.1 taken.2 method body = .ok sent)
      sent (reached web handler request left url hops)) ?_ ?_ ?_ ?_ left url method body hops
  · intro left _ _ _
    unfold reached
    exact .nil
  · intro left _ _ _ hop hops hrefused
    unfold reached
    simp [hrefused]
  · intro left url method body hop hops sent haccepts hbuilt hlast
    unfold reached
    rcases hlast with rfl | hnone
    · simpa [haccepts] using ⟨method, body, hbuilt⟩
    · simpa [haccepts, hnone] using ⟨method, body, hbuilt⟩
  · intro left url method body hop hops sent status target rest haccepts hbuilt htarget ih
    unfold reached
    simp only [haccepts, if_true, htarget]
    exact .cons ⟨method, body, hbuilt⟩ ih

end

end Chain

/-! ## Confinement -/

/-- Every request goes to an HTTP URL, and none takes a credential header away from the origin of
the original URL. -/
def Confined (web : Web) (request : PreparedRequest) (url : Url) (sent : List Sent) : Prop :=
  ∀ s ∈ sent, s.url.isWeb = true ∧
    (s.url.origin ≠ url.origin → ∀ header ∈ credentials web request, ¬ s.Carries header)

/-- The redirects lead to HTTP URLs only, and stay with the origin where the request has a
credential header left. -/
def Contained (web : Web) (handler : HttpHandler) (request : PreparedRequest) (url : Url)
    (hops : List Hop) : Prop :=
  ∀ taken ∈ reached web handler request request.maxRedirects url hops,
    taken.2.isWeb = true ∧ (Survives web request taken.1 → taken.2.origin = url.origin)

theorem forall_iff_of_forall₂ {α β : Type} {R : α → β → Prop} {P : α → Prop} {Q : β → Prop}
    {l : List α} {l' : List β} (h : Forall₂ R l l') (hR : ∀ a b, R a b → (P a ↔ Q b)) :
    (∀ a ∈ l, P a) ↔ ∀ b ∈ l', Q b := by
  induction h with
  | nil => simp
  | cons hab _ ih => rw [forall_mem_cons, forall_mem_cons, hR _ _ hab, ih]

/-- The handler sends at most `max_redirects + 1` requests, whose methods and bodies follow the rule
for redirects.  They are all confined if and only if the redirects are. -/
theorem redirects_confined_iff (web : Web) (handler : HttpHandler) (request : PreparedRequest)
    (url : Url) (method : String) (hops : List Hop) :
    let sent := (run web handler request request.maxRedirects url method request.body hops).1
    sent.length ≤ request.maxRedirects + 1 ∧ Chained method request.body hops sent ∧
      (Confined web request url sent ↔ Contained web handler request url hops) := by
  refine ⟨run_length .., run_chained .., forall_iff_of_forall₂ (run_reached ..) ?_⟩
  rintro s ⟨hop, target⟩ ⟨_, _, hbuilt⟩
  rw [← exists_carries_iff hbuilt, (buildRequest_fields hbuilt).1]
  refine and_congr_right fun _ => ⟨fun h hcarries => ?_, fun h hne header hmem hcarries => ?_⟩
  · by_contra hne
    obtain ⟨header, hmem, hcarries⟩ := hcarries
    exact h hne header hmem hcarries
  · exact hne (h ⟨header, hmem, hcarries⟩)

/-- The handler starts the loop at HTTP URLs only. -/
theorem execute_eq_run {web : Web} {handler : HttpHandler} {request : PreparedRequest}
    {hops : List Hop} (h : (execute web handler request hops).1 ≠ []) :
    ∃ url method, web.parse request.url = .ok url ∧ url.isWeb = true ∧
      execute web handler request hops =
        run web handler request request.maxRedirects url method request.body hops := by
  unfold execute at h ⊢
  split at h
  · cases h rfl
  · rename_i url hparse
    split at h
    · rename_i hweb
      split at h
      · cases h rfl
      · rename_i method hmethod
        exact ⟨url, method, hparse, hweb, by simp [hweb]⟩
    · cases h rfl

def otherHostWeb : Web where
  parse _ := .ok { scheme := "https", host := some "shop.test" }
  join _ _ := .ok { scheme := "http", host := some "other.test" }
  uri := .ok
  method := .ok
  headerName name := .ok name.toLower
  checkValue _ := .ok ()
  isText _ := true

def authorizedRequest : PreparedRequest :=
  { url := "https://shop.test/", headers := [("Authorization", "Bearer token")] }

def redirectedRun : List Sent :=
  (run otherHostWeb {} authorizedRequest authorizedRequest.maxRedirects
    { scheme := "https", host := some "shop.test" } "GET" []
    [{ reply := .response 302 [("location", "http://other.test/")] none },
      { reply := .response 200 [] none }]).1

/-- The credentials of the original URL go to the host that it redirects to. -/
theorem credentials_follow_redirect :
    ¬ Confined otherHostWeb authorizedRequest { scheme := "https", host := some "shop.test" }
      redirectedRun := by
  intro h
  have hsent : redirectedRun[1]?.any (fun s => s.url.host = some "other.test" &&
      ("authorization", "Bearer token") ∈ s.headers) = true := by
    decide +kernel
  obtain ⟨s, hs, hp⟩ := (Option.any_eq_true _ _).1 hsent
  obtain ⟨hhost, hheader⟩ := Bool.and_eq_true_iff.1 hp
  have horigin : s.url.origin ≠ ({ scheme := "https", host := some "shop.test" } : Url).origin := by
    intro heq
    have hsame : s.url.host = some "shop.test" := congrArg (fun o => o.2.1) heq
    rw [hsame] at hhost
    simp at hhost
  refine (h s (mem_of_getElem? hs)).2 horigin ("authorization", "Bearer token") ?_
    ⟨"Bearer token", by simpa using hheader, prefix_rfl⟩
  decide +kernel

end Loadr.Http
