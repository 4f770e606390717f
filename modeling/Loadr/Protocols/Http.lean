import Mathlib.Data.List.Basic

/-!
# HTTP handler

How a request is built for one hop, how it is sent, and the loop that follows redirects.

URLs, header names and header values are those of third-party libraries, whose functions are the
fields of `Web`.  What the network and the cookie jar contribute to a hop is a `Hop`.  Timings, byte
counts and the bodies of responses are left out, and so is the response cache.
-/

namespace Loadr.Http

/-! ## URLs -/

/-- A parsed URL.  The port is absent where it is that of the scheme. -/
structure Url where
  scheme : String
  host : Option String
  port : Option ℕ := none
  path : String := "/"
  query : Option String := none
deriving DecidableEq

namespace Url

def portOrKnownDefault (url : Url) : Option ℕ :=
  url.port.or <|
    if url.scheme = "http" ∨ url.scheme = "ws" then some 80
    else if url.scheme = "https" ∨ url.scheme = "wss" then some 443
    else if url.scheme = "ftp" then some 21
    else none

def origin (url : Url) : String × Option String × Option ℕ :=
  (url.scheme, url.host, url.portOrKnownDefault)

def pathAndQuery (url : Url) : String :=
  match url.query with
  | some query => url.path ++ "?" ++ query
  | none => url.path

def hostHeaderValue (url : Url) : String :=
  match url.port with
  | some port => url.host.getD "" ++ ":" ++ toString port
  | none => url.host.getD ""

def asStr (url : Url) : String := url.scheme ++ "://" ++ url.hostHeaderValue ++ url.pathAndQuery

def isWeb (url : Url) : Bool := url.scheme = "http" || url.scheme = "https"

def hostPort (url : Url) : Except String (String × ℕ) :=
  match url.host, url.portOrKnownDefault with
  | none, _ => .error ("url `" ++ url.asStr ++ "` has no host")
  | some _, none => .error ("url `" ++ url.asStr ++ "` has no port")
  | some host, some port => .ok (host, port)

end Url

/-- The functions of the libraries for URLs and headers; errors are their texts. -/
structure Web where
  parse : String → Except String Url
  join : Url → String → Except String Url
  uri : String → Except String String
  method : String → Except String String
  /-- The name in lower case, if it is one. -/
  headerName : String → Except String String
  checkValue : String → Except String Unit
  /-- Whether the value is one that `to_str` gives back. -/
  isText : String → Bool

/-! ## Requests -/

abbrev Headers := List (String × String)

def Headers.contains (headers : Headers) (name : String) : Bool := headers.any (·.1 = name)

def Headers.get (headers : Headers) (name : String) : Option String :=
  (headers.find? (·.1 = name)).map (·.2)

/-- Set a header, in the place of all of that name. -/
def Headers.insert (headers : Headers) (name value : String) : Headers :=
  headers.filter (·.1 ≠ name) ++ [(name, value)]

def Headers.insertNew (headers : Headers) (name value : String) : Headers :=
  if headers.contains name then headers else headers.insert name value

structure PreparedRequest where
  method : String := ""
  url : String
  headers : Headers := []
  body : List UInt8 := []
  followRedirects : Bool := true
  maxRedirects : ℕ := 10

structure HttpHandler where
  compression : Bool := true
  keepAlive : Bool := true
  proxy : Option Url := none
  tracing : Bool := false

inductive Reply
  | unreachable (message : String)
  | lost (message : String)
  | timedOut
  | response (status : ℕ) (headers : Headers) (readError : Option String)

/-- One hop: the version of the connection, the cookies of the jar for its URL, the trace context
for it, and the reply. -/
structure Hop where
  h2 : Bool := false
  cookies : Option String := none
  traceparent : String := ""
  reply : Reply

structure Sent where
  url : Url
  uri : String
  method : String
  headers : Headers
  body : List UInt8

def defaultUserAgent : String := "loadr/0.1"

def explicitHeaders (web : Web) : Headers → Except String Headers
  | [] => .ok []
  | (name, value) :: rest => do
    let name ← (web.headerName name).mapError fun e => "invalid header name `" ++ name ++ "`: " ++ e
    (web.checkValue value).mapError fun e => "invalid value for header `" ++ name ++ "`: " ++ e
    let others ← explicitHeaders web rest
    return (name, value) :: others

def hostHeader (web : Web) (h2 : Bool) (url : Url) (headers : Headers) : Except String Headers :=
  if h2 || headers.contains "host" then .ok headers
  else do
    (web.checkValue url.hostHeaderValue).mapError fun e =>
      "invalid host `" ++ url.hostHeaderValue ++ "`: " ++ e
    return headers.insert "host" url.hostHeaderValue

/-- The cookies of the jar follow those that the request has, or replace what is no text. -/
def cookieHeader (web : Web) (cookies : Option String) (headers : Headers) : Headers :=
  match cookies with
  | some cookies =>
    let merged := match (headers.get "cookie").filter web.isText with
      | some existing => existing ++ "; " ++ cookies
      | none => cookies
    match web.checkValue merged with
    | .ok _ => headers.insert "cookie" merged
    | .error _ => headers
  | none => headers

/-- The headers that the handler adds on its own account. -/
def defaultHeaders (handler : HttpHandler) (h2 : Bool) (body : List UInt8) (headers : Headers) :
    Headers :=
  let headers := headers.insertNew "user-agent" defaultUserAgent
  let headers :=
    if handler.compression then headers.insertNew "accept-encoding" "gzip, deflate, br" else headers
  let headers :=
    if body.isEmpty then headers else headers.insertNew "content-length" (toString body.length)
  if !h2 && !handler.keepAlive then headers.insert "connection" "close" else headers

def traceHeader (web : Web) (handler : HttpHandler) (traceparent : String) (headers : Headers) :
    Headers :=
  if handler.tracing then
    match web.checkValue traceparent with
    | .ok _ => headers.insertNew "traceparent" traceparent
    | .error _ => headers
  else headers

def requestUri (web : Web) (handler : HttpHandler) (h2 : Bool) (url : Url) : Except String String :=
  if h2 || (handler.proxy.isSome && url.scheme = "http") then
    (web.uri url.asStr).mapError fun e => "invalid url `" ++ url.asStr ++ "`: " ++ e
  else
    (web.uri url.pathAndQuery).mapError fun e => "invalid path `" ++ url.pathAndQuery ++ "`: " ++ e

def buildRequest (web : Web) (handler : HttpHandler) (request : PreparedRequest) (hop : Hop)
    (url : Url) (method : String) (body : List UInt8) : Except String Sent := do
  let uri ← requestUri web handler hop.h2 url
  let headers ← explicitHeaders web request.headers
  let headers ← hostHeader web hop.h2 url headers
  let headers := defaultHeaders handler hop.h2 body headers
  let headers := cookieHeader web hop.cookies headers
  let headers := traceHeader web handler hop.traceparent headers
  return ⟨url, uri, method, headers, body⟩

/-! ## Hops -/

structure Response where
  status : ℕ := 0
  headers : Headers := []
  error : Option String := none
  url : String

def Headers.header (headers : Headers) (name : String) : Option String :=
  (headers.find? fun h => h.1.toLower = name.toLower).map (·.2)

def transportErrorResponse (message : String) (url : Url) : Response :=
  { error := some message, url := url.asStr }

/-- What one hop sends, and what it returns; `none` if its time is over. -/
structure Exchange where
  sent : Option Sent
  result : Option (Except String Response)

def oneRequest (web : Web) (handler : HttpHandler) (request : PreparedRequest) (hop : Hop)
    (url : Url) (method : String) (body : List UInt8) : Exchange :=
  match url.hostPort with
  | .error e => ⟨none, some (.error e)⟩
  | .ok _ =>
    match hop.reply with
    | .unreachable message => ⟨none, some (.ok (transportErrorResponse message url))⟩
    | reply =>
      match buildRequest web handler request hop url method body with
      | .error e => ⟨none, some (.error e)⟩
      | .ok sent => ⟨some sent, match reply with
        | .lost message => some (.ok (transportErrorResponse
            ("request to " ++ url.asStr ++ " failed: " ++ message) url))
        | .response status headers readError => some (.ok ⟨status, headers, readError, url.asStr⟩)
        | _ => none⟩

/-! ## Redirects -/

def isRedirect (status : ℕ) : Bool :=
  status = 301 || status = 302 || status = 303 || status = 307 || status = 308

def redirectedTo (status : ℕ) (method : String) (body : List UInt8) : String × List UInt8 :=
  if 301 ≤ status ∧ status ≤ 303 ∧ method ≠ "HEAD" then ("GET", []) else (method, body)

/-- Where a response redirects to: the outer option is whether the handler looks for a redirect. -/
def redirectLocation (request : PreparedRequest) (response : Response) : Option (Option String) :=
  if response.error.isNone && isRedirect response.status && request.followRedirects then
    some (response.headers.header "location")
  else none

/-- The loop that follows redirects, with so many left to follow.  It returns what was sent, and
nothing where its time is over. -/
def run (web : Web) (handler : HttpHandler) (request : PreparedRequest) :
    ℕ → Url → String → List UInt8 → List Hop → List Sent × Option (Except String Response)
  | _, _, _, _, [] => ([], none)
  | left, url, method, body, hop :: hops =>
    let exchange := oneRequest web handler request hop url method body
    match exchange.result with
    | some (.ok response) =>
      let done (error : Option String) : List Sent × Option (Except String Response) :=
        (exchange.sent.toList, some (.ok { response with error, url := url.asStr }))
      match redirectLocation request response with
      | none => done response.error
      | some location =>
        match left with
        | 0 => done (some ("stopped after " ++ toString request.maxRedirects ++
            " redirects (max_redirects)"))
        | left + 1 =>
          match location with
          | none => done response.error
          | some location =>
            match web.join url location with
            | .ok next =>
              let (method, body) := redirectedTo response.status method body
              let (sent, result) := run web handler request left next method body hops
              (exchange.sent.toList ++ sent, result)
            | .error e => done (some ("invalid redirect location `" ++ location ++ "`: " ++ e))
    | result => (exchange.sent.toList, result)

/-- `execute` without the response cache. -/
def execute (web : Web) (handler : HttpHandler) (request : PreparedRequest) (hops : List Hop) :
    List Sent × Option (Except String Response) :=
  match web.parse request.url with
  | .error e => ([], some (.error ("invalid url `" ++ request.url ++ "`: " ++ e)))
  | .ok url =>
    if url.isWeb then
      match parseMethod web request.method with
      | .error e => ([], some (.error e))
      | .ok method => run web handler request request.maxRedirects url method request.body hops
    else ([], some (.error ("http handler cannot handle scheme `" ++ url.scheme ++ "`")))
where
  parseMethod (web : Web) (method : String) : Except String String :=
    if method = "" then .ok "GET"
    else (web.method method.toUpper).mapError fun e => "invalid method `" ++ method ++ "`: " ++ e

end Loadr.Http
