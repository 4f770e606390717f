import Mathlib.Algebra.Ring.Int.Defs
import Mathlib.Data.Char
import Mathlib.Data.List.Induction
import Mathlib.Data.List.Nodup
import Loadr.Protocols.Http

/-!
# The cookie jar

A virtual user stores the cookies of `Set-Cookie` headers and of its scripts, and sends them with
the requests that match their domain and path.  A header is taken as the cookie library reads it.
Instants are readings of the system clock in nanoseconds, which may go back.
-/

namespace Loadr.Cookies

open List Option

open Http (Url)

/-! ## The jar -/

structure StoredCookie where
  name : String
  value : String
  domain : String
  /-- The cookie came with a `Domain` attribute, so that subdomains match too. -/
  domainWide : Bool
  path : String
  secure : Bool
  expires : Option ℤ
deriving DecidableEq

abbrev CookieJar := List StoredCookie

inductive Expiration
  | session
  | dateTime (instant : ℤ)
deriving DecidableEq

structure SetCookie where
  name : String
  value : String
  domain : Option String := none
  path : Option String := none
  secure : Option Bool := none
  expires : Option Expiration := none
  maxAge : Option ℤ := none
deriving DecidableEq

def domainMatches (requestHost cookieDomain : String) (domainWide : Bool) : Bool :=
  if requestHost = cookieDomain then true
  else if !domainWide then false
  else ((requestHost.toList.dropSuffix? cookieDomain.toList).map
    fun label => label.getLast? == some '.').getD false

def pathMatches (requestPath cookiePath : String) : Bool :=
  if requestPath = cookiePath then true
  else match requestPath.toList.dropPrefix? cookiePath.toList with
    | some rest => cookiePath.toList.getLast? == some '/' || rest.head? == some '/'
    | none => false

/-- What comes before the last slash, if that is anything. -/
def defaultPath (url : Url) : String :=
  let before := ((url.path.toList.reverse.dropWhile (· ≠ '/')).drop 1).reverse
  if before.isEmpty then "/" else String.ofList before

def requestHost (url : Url) : String := (url.host.getD "").toLower

def requestPath (url : Url) : String :=
  if url.path.isEmpty then "/" else url.path

def isHttps (url : Url) : Bool := url.scheme = "https" || url.scheme = "wss"

/-- The domain that a `Domain` attribute names.  The cookie library has dropped one leading dot. -/
def attributeDomain (domain : String) : String :=
  (String.ofList (domain.toList.dropWhile (· = '.'))).toLower

/-- The instant so many seconds later.  The clock's type ends after `2 ^ 63` seconds, where the
addition panics. -/
def addSeconds (now age : ℤ) : Option ℤ :=
  if now + age * 10 ^ 9 < 2 ^ 63 * 10 ^ 9 then some (now + age * 10 ^ 9) else none

def expiry (parsed : SetCookie) (now : ℤ) : Option (Option ℤ) :=
  match parsed.expires, parsed.maxAge with
  | some (.dateTime instant), _ => some (some instant)
  | _, some age => if 0 ≤ age then (addSeconds now age).map some else some none
  | _, none => some none

def cookieDomain (url : Url) (parsed : SetCookie) : Option String :=
  match parsed.domain with
  | some domain =>
    if domainMatches (requestHost url) (attributeDomain domain) true then
      some (attributeDomain domain)
    else none
  | none => some (requestHost url)

def entry (url : Url) (parsed : SetCookie) (now : ℤ) : Option StoredCookie := do
  let domain ← cookieDomain url parsed
  let expires ← expiry parsed now
  return { name := parsed.name, value := parsed.value, domain := domain
           domainWide := parsed.domain.isSome, path := parsed.path.getD (defaultPath url)
           secure := parsed.secure.getD false, expires := expires }

def panics (url : Url) (parsed : SetCookie) (now : ℤ) : Bool :=
  (cookieDomain url parsed).isSome && (expiry parsed now).isNone

namespace StoredCookie

def key (c : StoredCookie) : String × String × String := (c.name, c.domain, c.path)

def expired (c : StoredCookie) (now : ℤ) : Bool := c.expires.any (· ≤ now)

def appliesTo (c : StoredCookie) (url : Url) : Bool :=
  domainMatches (requestHost url) c.domain c.domainWide && pathMatches (requestPath url) c.path

end StoredCookie

def retain (jar : CookieJar) (key : String × String × String) : CookieJar :=
  jar.filter fun c => c.key ≠ key

/-- A cookie replaces the one with its key; an expired one only deletes it. -/
def put (jar : CookieJar) (c : Option StoredCookie) (now : ℤ) : CookieJar :=
  match c with
  | none => jar
  | some c => if c.expired now then retain jar c.key else retain jar c.key ++ [c]

/-- The clock is read twice: for the end of a `Max-Age`, and to see whether the cookie expired. -/
def storeFromHeader (jar : CookieJar) (url : Url) (header : Option SetCookie)
    (now later : ℤ) : Option CookieJar :=
  if header.any (panics url · now) then none
  else some (put jar (header.bind (entry url · now)) later)

/-- A host-only cookie with the path `/`. -/
def scriptCookie (url : Url) (name value : String) : StoredCookie :=
  { name := name, value := value, domain := requestHost url, domainWide := false, path := "/"
    secure := false, expires := none }

def set (jar : CookieJar) (url : Url) (name value : String) : CookieJar :=
  retain jar (scriptCookie url name value).key ++ [scriptCookie url name value]

def sent (jar : CookieJar) (url : Url) (now : ℤ) : List StoredCookie :=
  (jar.filter fun c => !c.expired now).filter fun c =>
    c.appliesTo url && !(c.secure && !isHttps url)

def pairs (jar : CookieJar) (url : Url) (now : ℤ) : List (String × String) :=
  (sent jar url now).map fun c => (c.name, c.value)

def headerFor (jar : CookieJar) (url : Url) (now : ℤ) : Option String × CookieJar :=
  let texts := (pairs jar url now).map fun (name, value) => name ++ "=" ++ value
  (if texts.isEmpty then none else some ("; ".intercalate texts),
    jar.filter fun c => !c.expired now)

def get (jar : CookieJar) (url : Url) (name : String) : Option String :=
  (jar.find? fun c => c.name = name && c.appliesTo url).map (·.value)

/-! ## Matching -/

/-- The host is the domain, or the cookie is not host-only and the domain follows a dot in it. -/
def DomainFits (host domain : String) (domainWide : Bool) : Prop :=
  host = domain ∨ domainWide = true ∧ '.' :: domain.toList <:+ host.toList

/-- The path is the cookie's, or extends it at a slash. -/
def PathFits (request cookie : String) : Prop :=
  request = cookie ∨ ∃ rest, request.toList = cookie.toList ++ rest ∧
    (cookie.toList.getLast? = some '/' ∨ rest.head? = some '/')

variable {host domain : String}

theorem domainMatches_iff {wide : Bool} :
    domainMatches host domain wide = true ↔ DomainFits host domain wide := by
  unfold domainMatches DomainFits
  split_ifs with h hwide
  · simp [h]
  · simp_all
  · simp only [h, false_or, getD_eq_iff, map_eq_some_iff, beq_iff_eq,
      dropSuffix?_eq_some_iff, getLast?_eq_some_iff]
    constructor
    · rintro (⟨_, ⟨_, hhost, rfl⟩, label, rfl⟩ | h)
      · exact ⟨by simpa using hwide, label, by simp [hhost]⟩
      · simp at h
    · rintro ⟨-, label, hhost⟩
      exact .inl ⟨label ++ ['.'], ⟨_, by simp [← hhost], rfl⟩, label, rfl⟩

theorem pathMatches_iff {request cookie : String} :
    pathMatches request cookie = true ↔ PathFits request cookie := by
  unfold pathMatches PathFits
  split_ifs with h
  · simp [h]
  · cases hrest : request.toList.dropPrefix? cookie.toList with
    | none =>
      simp only [h, false_or, Bool.false_eq_true, false_iff]
      rintro ⟨rest, hrequest, -⟩
      have := dropPrefix?_eq_some_iff.2 ⟨_, hrequest, beq_self_eq_true _⟩
      cases hrest.symm.trans this
    | some rest =>
      obtain ⟨_, hrequest, heq⟩ := dropPrefix?_eq_some_iff.1 hrest
      rw [beq_iff_eq] at heq
      subst heq
      simp [h, hrequest]

/-! ## Histories of a jar -/

inductive Call
  | storeFromHeader (url : Url) (header : Option SetCookie) (now later : ℤ)
  | set (url : Url) (name value : String)
  | headerFor (url : Url) (now : ℤ)
  | clear

namespace Call

/-- A call that panics leaves the jar as it is. -/
def apply (jar : CookieJar) : Call → CookieJar
  | .storeFromHeader url header now later =>
    (Cookies.storeFromHeader jar url header now later).getD jar
  | .set url name value => Cookies.set jar url name value
  | .headerFor url now => (Cookies.headerFor jar url now).2
  | .clear => []

/-- The call stores a cookie that is not expired, for a response of this host or a script on it. -/
inductive Stores : Call → String → StoredCookie → Prop
  | header {url : Url} {parsed : SetCookie} {now later : ℤ} {c : StoredCookie}
      (h : entry url parsed now = some c) (he : c.expired later = false) :
      Stores (.storeFromHeader url (some parsed) now later) (requestHost url) c
  | script (url : Url) (name value : String) :
      Stores (.set url name value) (requestHost url) (scriptCookie url name value)

/-- The call stores or deletes the cookie with the key. -/
def Touches (key : String × String × String) : Call → Prop
  | .storeFromHeader url header now _ => ∃ c ∈ header.bind (entry url · now), c.key = key
  | .set url name value => (scriptCookie url name value).key = key
  | .headerFor .. => False
  | .clear => True

def stored : Call → Option StoredCookie
  | .storeFromHeader url header now later =>
    (header.bind (entry url · now)).filter (!·.expired later)
  | .set url name value => some (scriptCookie url name value)
  | _ => none

/-- The call replaces the cookie, deletes it or drops it as expired. -/
def removes (c : StoredCookie) : Call → Bool
  | .storeFromHeader url header now _ => (header.bind (entry url · now)).any (·.key = c.key)
  | .set url name value => (scriptCookie url name value).key = c.key
  | .headerFor _ now => c.expired now
  | .clear => true

end Call

def run (calls : List Call) : CookieJar := calls.foldl Call.apply []

/-- The cookies that calls stored and no later ones removed, in the order of the calls. -/
def standing : List Call → List StoredCookie
  | [] => []
  | call :: calls =>
    (call.stored.filter fun c => calls.all (!·.removes c)).toList ++ standing calls

/-- What holds for a cookie that is sent after these calls. -/
structure SafelySent (calls : List Call) (url : Url) (now : ℤ) (c : StoredCookie) : Prop where
  /-- It comes from the last call for its key, which was made for a host of its domain. -/
  origin : ∃ before call host after, calls = before ++ call :: after ∧ call.Stores host c ∧
    (∀ later ∈ after, ¬ later.Touches c.key) ∧ DomainFits host c.domain c.domainWide
  fresh : c.expired now = false
  host : DomainFits (requestHost url) c.domain c.domainWide
  path : PathFits (requestPath url) c.path
  secure : c.secure = true → url.scheme = "https" ∨ url.scheme = "wss"

variable {jar : CookieJar} {c : StoredCookie} {call : Call} {url : Url} {now : ℤ}

theorem put_eq_filter_append (e : Option StoredCookie) (now : ℤ) :
    put jar e now = jar.filter (fun c => !e.any (·.key = c.key)) ++
      (e.filter (!·.expired now)).toList := by
  cases e with
  | none => simp [put]
  | some c =>
    have hretain : retain jar c.key = jar.filter fun c' => !decide (c.key = c'.key) :=
      filter_congr fun c' _ => by simp [eq_comm]
    cases h : c.expired now <;> simp [put, h, hretain, Option.filter]

theorem apply_eq (jar : CookieJar) (call : Call) :
    call.apply jar = jar.filter (!call.removes ·) ++ call.stored.toList := by
  cases call with
  | storeFromHeader url header now later =>
    show (storeFromHeader jar url header now later).getD jar = _
    unfold storeFromHeader
    split_ifs with h
    · -- Where the addition panics, there is no cookie.
      obtain ⟨parsed, hparsed, h⟩ := (any_eq_true _ _).1 h
      obtain ⟨-, hnone⟩ := Bool.and_eq_true_iff.1 h
      have hentry : entry url parsed now = none := by
        simp [entry, isNone_iff_eq_none.1 hnone]
      simp [hparsed, Call.removes, Call.stored, hentry]
    · exact put_eq_filter_append _ later
  | set url name value => exact put_eq_filter_append (some (scriptCookie url name value)) 0
  | headerFor url now => simp [Call.apply, headerFor, Call.removes, Call.stored]
  | clear => simp [Call.apply, Call.removes, Call.stored]

theorem foldl_apply (calls : List Call) (jar : CookieJar) : calls.foldl Call.apply jar =
    jar.filter (fun c => calls.all (!·.removes c)) ++ standing calls := by
  induction calls generalizing jar with
  | nil => simp [standing]
  | cons call calls ih =>
    rw [foldl_cons, ih, apply_eq, filter_append, List.filter_filter, standing, append_assoc,
      Option.toList_filter]
    simp [all_cons, Bool.and_comm]

theorem run_eq_standing (calls : List Call) : run calls = standing calls := foldl_apply calls []

theorem exists_stored {calls : List Call} (h : c ∈ standing calls) :
    ∃ before call after, calls = before ++ call :: after ∧ call.stored = some c ∧
      ∀ later ∈ after, later.removes c = false := by
  induction calls with
  | nil => cases h
  | cons call calls ih =>
    rcases mem_append.1 h with h | h
    · obtain ⟨hstored, hlater⟩ := Option.filter_eq_some_iff.1 (mem_toList.1 h)
      exact ⟨[], call, calls, rfl, hstored, by simpa using hlater⟩
    · obtain ⟨before, call', after, rfl, hstored, hlater⟩ := ih h
      exact ⟨call :: before, call', after, rfl, hstored, hlater⟩

theorem removes_of_stored {c' : StoredCookie} (h : call.stored = some c') (hkey : c'.key = c.key) :
    call.removes c = true := by
  cases call with
  | storeFromHeader url header now later =>
    obtain ⟨hentry, -⟩ := Option.filter_eq_some_iff.1 h
    simp [Call.removes, hentry, hkey]
  | set url name value =>
    cases h
    simpa [Call.removes] using hkey
  | headerFor | clear => cases h

theorem nodup_standing (calls : List Call) : ((standing calls).map StoredCookie.key).Nodup := by
  induction calls with
  | nil => exact nodup_nil
  | cons call calls ih =>
    rw [standing, map_append, nodup_append]
    refine ⟨?_, ih, fun key hkey key' hkey' heq => ?_⟩
    · cases call.stored.filter fun c => calls.all (!·.removes c) <;> simp
    · obtain ⟨c, hc, rfl⟩ := mem_map.1 hkey
      obtain ⟨c', hc', rfl⟩ := mem_map.1 hkey'
      obtain ⟨-, hlater⟩ := Option.filter_eq_some_iff.1 (mem_toList.1 hc)
      obtain ⟨before, call', after, rfl, hstored, -⟩ := exists_stored hc'
      have hkept := all_eq_true.1 hlater call' (by simp)
      simp [removes_of_stored hstored heq.symm] at hkept

theorem exists_stores {calls : List Call} (h : c ∈ run calls) :
    ∃ before call host after, calls = before ++ call :: after ∧ call.Stores host c ∧
      ∀ later ∈ after, ¬ later.Touches c.key := by
  rw [run_eq_standing] at h
  obtain ⟨before, call, after, hcalls, hstored, hlater⟩ := exists_stored h
  have hstores : ∃ host, call.Stores host c := by
    cases call with
    | storeFromHeader url header now later =>
      obtain ⟨hentry, hfresh⟩ := Option.filter_eq_some_iff.1 hstored
      obtain ⟨parsed, rfl, hentry⟩ := bind_eq_some_iff.1 hentry
      exact ⟨_, .header hentry (by simpa using hfresh)⟩
    | set url name value =>
      cases hstored
      exact ⟨_, .script url name value⟩
    | headerFor | clear => cases hstored
  obtain ⟨host, hstores⟩ := hstores
  refine ⟨before, call, host, after, hcalls, hstores, fun later hmem htouch => ?_⟩
  have hkept := hlater later hmem
  cases later with
  | storeFromHeader url header now later =>
    obtain ⟨c', hc', hkey⟩ := htouch
    simp [Call.removes, mem_def.1 hc', hkey] at hkept
  | set url name value => exact of_decide_eq_false hkept htouch
  | headerFor => exact htouch
  | clear => cases hkept

theorem Call.Stores.domainFits (h : call.Stores host c) :
    DomainFits host c.domain c.domainWide := by
  cases h with
  | script => exact .inl rfl
  | @header url parsed now later c h he =>
    obtain ⟨domain, hdomain, h⟩ := bind_eq_some_iff.1 h
    obtain ⟨expires, -, h⟩ := bind_eq_some_iff.1 h
    cases h
    unfold cookieDomain at hdomain
    split at hdomain
    · rename_i hsome
      split_ifs at hdomain with hd
      cases hdomain
      simpa [hsome] using domainMatches_iff.1 hd
    · cases hdomain
      exact .inl rfl

theorem mem_sent : c ∈ sent jar url now ↔ c ∈ jar ∧ c.expired now = false ∧
    c.appliesTo url = true ∧ (c.secure = true → isHttps url = true) := by
  simp only [sent, mem_filter, Bool.not_eq_true', Bool.and_eq_true, Bool.and_eq_false_iff,
    Bool.not_eq_false']
  cases c.secure <;> simp [and_assoc]

/-- Cookies are told apart by name, domain and path, and each one that is sent is safe to send. -/
theorem cookies_sent_safely (calls : List Call) :
    ((run calls).map StoredCookie.key).Nodup ∧ ∀ url now, ∀ pair ∈ pairs (run calls) url now,
      ∃ c, pair = (c.name, c.value) ∧ SafelySent calls url now c := by
  constructor
  · exact run_eq_standing calls ▸ nodup_standing calls
  · intro url now pair hpair
    obtain ⟨c, hc, rfl⟩ := mem_map.1 hpair
    obtain ⟨hmem, hfresh, happlies, hsecure⟩ := mem_sent.1 hc
    obtain ⟨before, call, host, after, hcalls, hstores, hafter⟩ := exists_stores hmem
    rw [StoredCookie.appliesTo, Bool.and_eq_true, domainMatches_iff, pathMatches_iff] at happlies
    refine ⟨c, rfl, ⟨before, call, host, after, hcalls, hstores, hafter, hstores.domainFits⟩,
      hfresh, happlies.1, happlies.2, fun hs => ?_⟩
    simpa [isHttps] using hsecure hs

/-! ## Reading a cookie -/

/-- A script gets a cookie exactly if it would be sent, with a value that would be sent. -/
def Agrees (jar : CookieJar) (url : Url) (now : ℤ) (name : String) : Prop :=
  ((get jar url name).isSome ↔ ∃ value, (name, value) ∈ pairs jar url now) ∧
    ∀ value, get jar url name = some value → (name, value) ∈ pairs jar url now

theorem mem_pairs {name value : String} : (name, value) ∈ pairs jar url now ↔
    ∃ c ∈ sent jar url now, c.name = name ∧ c.value = value := by
  simp [pairs]

def StoredCookie.Fits (c : StoredCookie) (url : Url) (name : String) : Prop :=
  c.name = name ∧ DomainFits (requestHost url) c.domain c.domainWide ∧
    PathFits (requestPath url) c.path

theorem fits_iff {name : String} :
    (decide (c.name = name) && c.appliesTo url) = true ↔ c.Fits url name := by
  rw [Bool.and_eq_true, decide_eq_true_eq, StoredCookie.appliesTo, Bool.and_eq_true,
    domainMatches_iff, pathMatches_iff]
  rfl

/-- `get` looks at neither the expiry of a cookie nor its `Secure` attribute.  It agrees with the
header exactly if the first cookie to stand for the name and the URL has the value of one that is
fresh and, unless the connection is secure, not `Secure`. -/
theorem get_agrees_iff {calls : List Call} {name : String} : Agrees (run calls) url now name ↔
    ∀ before c after, standing calls = before ++ c :: after → c.Fits url name →
      (∀ earlier ∈ before, ¬ earlier.Fits url name) →
      ∃ c' ∈ standing calls, c'.Fits url name ∧ c'.value = c.value ∧ c'.expired now = false ∧
        (c'.secure = true → url.scheme = "https" ∨ url.scheme = "wss") := by
  have hpairs {value : String} : (name, value) ∈ pairs (run calls) url now ↔
      ∃ c' ∈ standing calls, c'.Fits url name ∧ c'.value = value ∧ c'.expired now = false ∧
        (c'.secure = true → url.scheme = "https" ∨ url.scheme = "wss") := by
    simp only [mem_pairs, mem_sent, run_eq_standing, ← fits_iff, isHttps, Bool.or_eq_true,
      Bool.and_eq_true, decide_eq_true_eq]
    grind
  have hget {value : String} : get (run calls) url name = some value ↔ ∃ before c after,
      standing calls = before ++ c :: after ∧ c.Fits url name ∧
        (∀ earlier ∈ before, ¬ earlier.Fits url name) ∧ c.value = value := by
    simp only [get, run_eq_standing, map_eq_some_iff, find?_eq_some_iff_append, ← fits_iff]
    grind
  have hsome : (get (run calls) url name).isSome = false →
      ∀ value, (name, value) ∉ pairs (run calls) url now := by
    intro hnone value hpair
    obtain ⟨c, hmem, hfits, -⟩ := hpairs.1 hpair
    rw [isSome_eq_false_iff, isNone_iff_eq_none, get, map_eq_none_iff, find?_eq_none,
      run_eq_standing] at hnone
    exact hnone c hmem (fits_iff.2 hfits)
  constructor
  · intro h before c after hstanding hfits hfirst
    exact hpairs.1 (h.2 _ (hget.2 ⟨before, c, after, hstanding, hfits, hfirst, rfl⟩))
  · intro h
    have hvalue : ∀ value, get (run calls) url name = some value →
        (name, value) ∈ pairs (run calls) url now := by
      intro value hvalue
      obtain ⟨before, c, after, hstanding, hfits, hfirst, rfl⟩ := hget.1 hvalue
      exact hpairs.2 (h before c after hstanding hfits hfirst)
    refine ⟨⟨fun hsome => ?_, fun ⟨value, hpair⟩ => ?_⟩, hvalue⟩
    · obtain ⟨value, hget⟩ := isSome_iff_exists.1 hsome
      exact ⟨value, hvalue value hget⟩
    · by_contra hnone
      exact hsome (by simpa using hnone) value hpair

def login : List Call :=
  [.storeFromHeader { scheme := "https", host := some "shop.test" }
    (some { name := "sid", value := "1", secure := some true }) 0 0]

/-- A script gets a `Secure` cookie on a plain `http` page, which it is not sent to. -/
theorem secure_cookie_read :
    ¬ Agrees (run login) { scheme := "http", host := some "shop.test" } 0 "sid" :=
  fun h => absurd (h.2 "1" (by decide +kernel)) (by decide +kernel)

/-! ## Attributes -/

/-- Four decimal numbers, or an address in brackets. -/
def isIp (host : String) : Bool :=
  host.toList.head? == some '[' ||
    let parts := host.toList.splitOn '.'
    parts.length = 4 && parts.all fun part => !part.isEmpty && part.all Char.isDigit

namespace Rfc

def acceptsDomain (host domain : String) : Prop :=
  host = domain ∨ isIp host = false ∧ '.' :: domain.toList <:+ host.toList

instance (host domain : String) : Decidable (acceptsDomain host domain) :=
  inferInstanceAs (Decidable (_ ∨ _))

def path (url : Url) (parsed : SetCookie) : String :=
  match parsed.path with
  | some path => if path.toList.head? = some '/' then path else defaultPath url
  | none => defaultPath url

/-- `Max-Age` decides where both attributes are there. -/
def expiry (parsed : SetCookie) (now : ℤ) : Option ℤ :=
  match parsed.maxAge, parsed.expires with
  | some age, _ => some (now + age * 10 ^ 9)
  | none, some (.dateTime instant) => some instant
  | none, _ => none

def cookieDomain (url : Url) (parsed : SetCookie) : Option String :=
  match parsed.domain with
  | some domain =>
    if acceptsDomain (requestHost url) domain.toLower then some domain.toLower else none
  | none => some (requestHost url)

def entry (url : Url) (parsed : SetCookie) (now : ℤ) : Option StoredCookie :=
  (cookieDomain url parsed).map fun domain =>
    { name := parsed.name, value := parsed.value, domain := domain
      domainWide := parsed.domain.isSome, path := path url parsed
      secure := parsed.secure.getD false, expires := expiry parsed now }

end Rfc

/-- A date is the end that `Max-Age` names, or both are over; without one, the clock's type has that
end. -/
def Timely (parsed : SetCookie) (now : ℤ) : Prop :=
  ∀ age ∈ parsed.maxAge, match parsed.expires with
    | some (.dateTime instant) => instant = now + age * 10 ^ 9 ∨ instant ≤ now ∧ age ≤ 0
    | _ => 0 ≤ age ∧ now + age * 10 ^ 9 < 2 ^ 63 * 10 ^ 9

/-- If the domain of a header is accepted, it has one leading dot at most and names the host where
that is an address; its path begins with a slash; and its end is the one of `Max-Age`. -/
def Conforms (url : Url) (parsed : SetCookie) (now : ℤ) : Prop :=
  (∀ domain ∈ parsed.domain, domainMatches (requestHost url) (attributeDomain domain) true = true) →
  (∀ domain ∈ parsed.domain, domain.toList.head? ≠ some '.' ∧
    (requestHost url = attributeDomain domain ∨ isIp (requestHost url) = false)) ∧
  (∀ path ∈ parsed.path, path.toList.head? = some '/' ∨ path = defaultPath url) ∧
  Timely parsed now

/-- The entries are one, or both only delete the cookie with their key. -/
def SameEntry (now : ℤ) (e e' : Option StoredCookie) : Prop :=
  e = e' ∨ ∃ c ∈ e, ∃ c' ∈ e', c.key = c'.key ∧ c.expired now = true ∧ c'.expired now = true

theorem expired_mono {later : ℤ} (h : now ≤ later) (hc : c.expired now = true) :
    c.expired later = true := by
  obtain ⟨instant, hinstant, hle⟩ := (any_eq_true _ _).1 hc
  have hle : instant ≤ now := of_decide_eq_true hle
  exact (any_eq_true _ _).2 ⟨instant, hinstant, decide_eq_true (Int.le_trans hle h)⟩

theorem put_eq_iff {e e' : Option StoredCookie} :
    (∀ jar later, now ≤ later → put jar e later = put jar e' later) ↔ SameEntry now e e' := by
  constructor
  · intro h
    have hput (jar : CookieJar) := h jar now (Int.le_refl now)
    simp only [put_eq_filter_append] at hput
    have hfresh : e.filter (!·.expired now) = e'.filter (!·.expired now) := by
      have hempty := congrArg head? (hput [])
      simpa only [filter_nil, nil_append, head?_toList] using hempty
    have hremoves (c : StoredCookie) : e.any (·.key = c.key) = e'.any (·.key = c.key) := by
      have hfull := hput [c]
      rw [hfresh, append_cancel_right_eq, filter_singleton, filter_singleton] at hfull
      cases hl : e.any (·.key = c.key) <;> cases hr : e'.any (·.key = c.key) <;>
        simp [hl, hr] at hfull ⊢
    cases e with
    | none =>
      cases e' with
      | none => exact .inl rfl
      | some c' => simpa using hremoves c'
    | some c =>
      obtain ⟨c', rfl, hkey⟩ : ∃ c', e' = some c' ∧ c'.key = c.key := by
        simpa using (any_eq_true _ _).1 ((hremoves c).symm.trans (by simp))
      cases hc : c.expired now <;> cases hc' : c'.expired now <;>
        simp [Option.filter, hc, hc'] at hfresh
      · exact .inl (congrArg some hfresh)
      · exact .inr ⟨c, rfl, c', rfl, hkey.symm, hc, hc'⟩
  · rintro (rfl | ⟨c, ⟨⟩, c', ⟨⟩, hkey, hc, hc'⟩) jar later hle
    · rfl
    · simp [put, expired_mono hle hc, expired_mono hle hc', hkey]

theorem path_eq_iff {parsed : SetCookie} :
    parsed.path.getD (defaultPath url) = Rfc.path url parsed ↔
    ∀ path ∈ parsed.path, path.toList.head? = some '/' ∨ path = defaultPath url := by
  unfold Rfc.path
  cases parsed.path with
  | none => simp
  | some path =>
    simp only [getD_some, mem_def, some.injEq, forall_eq']
    split_ifs with h <;> simp [h]

theorem timely_iff {parsed : SetCookie} : Timely parsed now ↔ ∃ x, expiry parsed now = some x ∧
    (x = Rfc.expiry parsed now ∨
      x.any (· ≤ now) = true ∧ (Rfc.expiry parsed now).any (· ≤ now) = true) := by
  unfold Timely expiry Rfc.expiry
  cases parsed.maxAge with
  | none => rcases parsed.expires with _ | _ | instant <;> simp
  | some age =>
    have hage : now + age * 1000000000 ≤ now ↔ age ≤ 0 := by omega
    rcases parsed.expires with _ | _ | instant
    · simp [addSeconds]
      grind
    · simp [addSeconds]
      grind
    · simp [hage]

theorem toList_toLower (s : String) : s.toLower.toList = s.toList.map Char.toLower :=
  String.toList_map ..

theorem toList_attributeDomain (domain : String) : (attributeDomain domain).toList =
    (domain.toList.dropWhile (· = '.')).map Char.toLower := by
  simp [attributeDomain, toList_toLower]

theorem dropWhile_dots {text : List Char} (h : text.head? ≠ some '.') :
    text.dropWhile (· = '.') = text := by
  cases text with
  | nil => rfl
  | cons c text => exact dropWhile_cons_of_neg (by simpa using h)

theorem dot_dropWhile_suffix {text : List Char} (h : text.head? = some '.') :
    '.' :: text.dropWhile (· = '.') <:+ text := by
  induction text with
  | nil => cases h
  | cons c text ih =>
    cases h
    rw [dropWhile_cons_of_pos (by simp)]
    by_cases hnext : text.head? = some '.'
    · exact (ih hnext).trans (suffix_cons _ _)
    · exact (dropWhile_dots hnext).symm ▸ suffix_rfl

theorem attributeDomain_eq_iff :
    attributeDomain domain = domain.toLower ↔ domain.toList.head? ≠ some '.' := by
  rw [← String.toList_inj, toList_attributeDomain, toList_toLower]
  constructor
  · intro h hhead
    have hle := (dot_dropWhile_suffix hhead).length_le
    have hlen := congrArg List.length h
    simp only [length_map, length_cons] at hle hlen
    omega
  · intro h
    rw [dropWhile_dots h]

theorem acceptsDomain_iff : Rfc.acceptsDomain host domain ↔
    domainMatches host domain true = true ∧ (host = domain ∨ isIp host = false) := by
  rw [domainMatches_iff, Rfc.acceptsDomain, DomainFits]
  tauto

theorem domainMatches_of_acceptsDomain (h : Rfc.acceptsDomain host domain.toLower) :
    domainMatches host (attributeDomain domain) true = true := by
  by_cases hhead : domain.toList.head? = some '.'
  · have hsuffix : domain.toLower.toList <:+ host.toList := by
      rcases h with rfl | ⟨-, h⟩
      · exact suffix_rfl
      · exact (suffix_cons _ _).trans h
    have hdot := (dot_dropWhile_suffix hhead).map Char.toLower
    rw [map_cons, ← toList_attributeDomain, ← String.toList_map] at hdot
    exact domainMatches_iff.2 (.inr ⟨rfl, hdot.trans hsuffix⟩)
  · rw [attributeDomain_eq_iff.2 hhead]
    exact (acceptsDomain_iff.1 h).1

theorem cookieDomain_eq_some_iff {parsed : SetCookie} : (cookieDomain url parsed).isSome ↔
    ∀ domain ∈ parsed.domain,
      domainMatches (requestHost url) (attributeDomain domain) true = true := by
  unfold cookieDomain
  cases parsed.domain with
  | none => simp
  | some domain => simp only [mem_def, some.injEq, forall_eq']; split_ifs with h <;> simp [h]

theorem cookieDomain_eq_iff {parsed : SetCookie} (h : (cookieDomain url parsed).isSome) :
    cookieDomain url parsed = Rfc.cookieDomain url parsed ↔
    ∀ domain ∈ parsed.domain, domain.toList.head? ≠ some '.' ∧
      (requestHost url = attributeDomain domain ∨ isIp (requestHost url) = false) := by
  rw [cookieDomain_eq_some_iff] at h
  unfold cookieDomain Rfc.cookieDomain
  cases hdomain : parsed.domain with
  | none => simp
  | some domain =>
    have hd := h domain hdomain
    simp only [mem_def, some.injEq, forall_eq', hd, if_true, ← attributeDomain_eq_iff]
    by_cases hdot : attributeDomain domain = domain.toLower
    · by_cases hip : requestHost url = attributeDomain domain ∨ isIp (requestHost url) = false <;>
        simp [← hdot, acceptsDomain_iff, hd, hip]
    · by_cases hrfc : Rfc.acceptsDomain (requestHost url) domain.toLower <;> simp [hdot, hrfc]

theorem rfc_cookieDomain_eq_none {parsed : SetCookie} (h : cookieDomain url parsed = none) :
    Rfc.cookieDomain url parsed = none := by
  unfold cookieDomain Rfc.cookieDomain at *
  cases hdomain : parsed.domain with
  | none => simp [hdomain] at h
  | some domain =>
    simp only [hdomain, ite_eq_right_iff, reduceCtorEq, imp_false] at h ⊢
    exact mt domainMatches_of_acceptsDomain h

/-- A header is stored as the RFC says exactly if its attributes conform. -/
theorem store_follows_rfc_iff {parsed : SetCookie} :
    (∀ jar later, now ≤ later → storeFromHeader jar url (some parsed) now later =
      some (put jar (Rfc.entry url parsed now) later)) ↔ Conforms url parsed now := by
  have hput : (∀ jar later, now ≤ later → storeFromHeader jar url (some parsed) now later =
      some (put jar (Rfc.entry url parsed now) later)) ↔
      panics url parsed now = false ∧ SameEntry now (entry url parsed now)
        (Rfc.entry url parsed now) := by
    cases hpanics : panics url parsed now with
    | true => simpa [storeFromHeader, hpanics] using ⟨now, Int.le_refl now⟩
    | false => simpa [storeFromHeader, hpanics] using put_eq_iff
  rw [hput, Conforms, ← cookieDomain_eq_some_iff, ← path_eq_iff, timely_iff]
  cases hd : cookieDomain url parsed with
  | none => simp [panics, hd, entry, Rfc.entry, rfc_cookieDomain_eq_none hd, SameEntry]
  | some domain =>
    rw [← cookieDomain_eq_iff (by simp [hd]), hd]
    cases hx : expiry parsed now with
    | none => simp [panics, hd, hx]
    | some x =>
      cases hrfc : Rfc.cookieDomain url parsed with
      | none => simp [panics, hd, hx, hrfc, entry, Rfc.entry, SameEntry]
      | some domain' =>
        simp [panics, hd, hx, hrfc, entry, Rfc.entry, SameEntry, StoredCookie.key,
          StoredCookie.expired]
        tauto

/-- A cookie that is to last an hour is deleted because of its `Expires` date. -/
theorem max_age_overruled :
    let url : Url := { scheme := "http", host := some "shop.test" }
    let parsed : SetCookie :=
      { name := "sid", value := "1", expires := some (.dateTime 0), maxAge := some 3600 }
    storeFromHeader [] url (some parsed) 1 1 = some [] ∧
      put [] (Rfc.entry url parsed 1) 1 ≠ [] := by
  decide +kernel

end Loadr.Cookies
