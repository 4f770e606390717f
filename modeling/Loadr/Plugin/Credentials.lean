import Loadr.Lib.Machine
import Mathlib.Data.List.Basic

/-!
# Credentials of pooled connections

The MQTT and NATS plugins file an idle connection under the address it was opened for and the user
it was opened as.  The password is not part of the key: a request is served on a connection opened
with the same address and the same credentials exactly if the passwords agree
(`same_credentials_iff`).
-/

namespace Loadr.Credentials

structure Creds where
  user : String
  pass : Option String
deriving DecidableEq

structure Target where
  addr : String
  creds : Option Creds
deriving DecidableEq

def Target.poolKey (t : Target) : String :=
  match t.creds with
  | some c => c.user ++ "@" ++ t.addr
  | none => t.addr

/-- What `Url::parse` makes of a text: user names are percent-encoded, and a host has no `@`. -/
structure Url where
  scheme : String
  host : Option String
  port : Option ℕ
  username : String
  password : Option String
  username_plain : '@' ∉ username.toList
  host_plain : ∀ h ∈ host, '@' ∉ h.toList

inductive Plugin where
  | mqtt
  | nats

namespace Plugin

def scheme : Plugin → String
  | mqtt => "mqtt"
  | nats => "nats"

def defaultPort : Plugin → ℕ
  | mqtt => 1883
  | nats => 4222

def served : Plugin → String
  | mqtt => " (only plaintext `mqtt` is served)"
  | nats => ""

def parseTarget (p : Plugin) (parse : String → Except String Url) (raw : String) :
    Except String Target := do
  let url ← (parse raw).mapError fun e => "invalid url `" ++ raw ++ "`: " ++ e
  if url.scheme ≠ p.scheme then
    throw (p.scheme ++ " plugin cannot handle scheme `" ++ url.scheme ++ "`" ++ p.served)
  match url.host with
  | none => throw ("`" ++ raw ++ "` has no host")
  | some host =>
    return {
      addr := host ++ ":" ++ toString (url.port.getD p.defaultPort)
      creds := if url.username.isEmpty then none else some ⟨url.username, url.password⟩ }

end Plugin

/-- What one call of `run` awaits.  A connection is known by the target it was opened for. -/
inductive Phase where
  | connecting
  | exchange (conn : Target) (pooled : Bool)
deriving DecidableEq

structure State where
  pools : String → List Target
  running : List (Target × Phase)

namespace State

def checkin (s : State) (key : String) (conn : Target) : State :=
  { s with pools := Function.update s.pools key (s.pools key ++ [conn]) }

/-- `run` takes an idle connection, or makes one. -/
def start (s : State) (t : Target) : State :=
  let idle := s.pools t.poolKey
  match idle.getLast? with
  | some conn =>
    ⟨Function.update s.pools t.poolKey idle.dropLast, s.running ++ [(t, .exchange conn true)]⟩
  | none => { s with running := s.running ++ [(t, .connecting)] }

/-- What the call at `i` awaits ends, well or with an error. -/
def proceed (s : State) (i : ℕ) (t : Target) (ok : Bool) : Phase → State
  | .connecting =>
    let next := if ok then s.running.set i (t, .exchange t false) else s.running.eraseIdx i
    { s with running := next }
  | .exchange conn pooled =>
    if ok then { s.checkin t.poolKey conn with running := s.running.eraseIdx i }
    -- A connection that failed is dropped, and one of the pool replaced.
    else if pooled then { s with running := s.running.set i (t, .connecting) }
    else { s with running := s.running.eraseIdx i }

end State

inductive Action where
  | request (url : String)
  | proceed (i : ℕ) (ok : Bool)

/-- The pools under any number of requests. -/
def pooling (p : Plugin) (parse : String → Except String Url) : Machine State Action where
  init s := s = ⟨fun _ => [], []⟩
  next s
    | .request url => (p.parseTarget parse url).toOption.map s.start
    | .proceed i ok => s.running[i]?.map fun call => s.proceed i call.1 ok call.2

/-! ## The connections of a key -/

/-- Connections are filed and used under the key of the target they were opened for. -/
structure Filed (s : State) : Prop where
  idle : ∀ key, ∀ conn ∈ s.pools key, conn.poolKey = key
  used : ∀ t conn pooled, (t, .exchange conn pooled) ∈ s.running → conn.poolKey = t.poolKey

section

variable {s : State} {t : Target}

theorem Filed.update (h : Filed s) {key : String} {l : List Target}
    (hl : ∀ conn ∈ l, conn.poolKey = key) :
    Filed { s with pools := Function.update s.pools key l } := by
  refine ⟨fun k conn hconn => ?_, h.used⟩
  rcases eq_or_ne k key with rfl | hk
  · exact hl conn (by simpa using hconn)
  · exact h.idle k conn (by simpa [hk] using hconn)

theorem Filed.running (h : Filed s) {running : List (Target × Phase)}
    (hrunning : ∀ t conn pooled, (t, .exchange conn pooled) ∈ running →
      (t, .exchange conn pooled) ∈ s.running ∨ conn.poolKey = t.poolKey) :
    Filed { s with running } :=
  ⟨h.idle, fun t conn pooled hc => (hrunning t conn pooled hc).elim (h.used t conn pooled) id⟩

theorem Filed.start (h : Filed s) (t : Target) : Filed (s.start t) := by
  simp only [State.start]
  split
  · next conn hconn =>
    refine (h.update fun c hc => h.idle _ c (List.dropLast_subset _ hc)).running
      fun t' c pooled hc => (List.mem_append.1 hc).imp_right fun hc => ?_
    cases List.mem_singleton.1 hc
    exact h.idle _ conn (List.mem_of_getLast? hconn)
  · exact h.running fun t' c pooled hc => .inl (by simpa using hc)

theorem Filed.proceed (h : Filed s) {i : ℕ} {phase : Phase} (ok : Bool)
    (hi : s.running[i]? = some (t, phase)) : Filed (s.proceed i t ok phase) := by
  have hrest : Filed { s with running := s.running.eraseIdx i } :=
    h.running fun _ _ _ hc => .inl (List.mem_of_mem_eraseIdx hc)
  cases phase with
  | connecting =>
    cases ok with
    | false => exact hrest
    | true =>
      refine h.running fun t' c pooled hc => ?_
      rcases List.mem_or_eq_of_mem_set hc with hc | hc
      · exact .inl hc
      · cases hc
        exact .inr rfl
  | exchange conn pooled =>
    cases ok with
    | true =>
      refine hrest.update fun c hc => (List.mem_append.1 hc).elim (h.idle _ c) fun hc => ?_
      rw [List.mem_singleton.1 hc]
      exact h.used t conn pooled (List.mem_of_getElem? hi)
    | false =>
      cases pooled with
      | false => exact hrest
      | true =>
        refine h.running fun t' c pooled hc => .inl ?_
        rcases List.mem_or_eq_of_mem_set hc with hc | hc
        · exact hc
        · cases hc

variable {p : Plugin} {parse : String → Except String Url}

theorem filed_of_reachable (h : (pooling p parse).Reachable s) : Filed s := by
  refine h.invariant (I := Filed) ?_ fun s a t _ hs hnext => ?_
  · rintro _ rfl
    constructor <;> simp
  · cases a with
    | request url =>
      obtain ⟨target, -, rfl⟩ := Option.map_eq_some_iff.1 hnext
      exact hs.start target
    | proceed i ok =>
      obtain ⟨⟨target, phase⟩, hi, rfl⟩ := Option.map_eq_some_iff.1 hnext
      exact hs.proceed ok hi

/-! ## The key of a target -/

theorem of_parseTarget {raw : String} {url : Url} (hurl : parse raw = .ok url)
    (h : p.parseTarget parse raw = .ok t) : '@' ∉ t.addr.toList ∧
      t.poolKey = if url.username = "" then t.addr else url.username ++ "@" ++ t.addr := by
  simp only [Plugin.parseTarget, hurl, Except.mapError, bind, Except.bind] at h
  split at h
  · cases h
  · split at h
    · cases h
    · next host hhost =>
      cases h
      have hport : '@' ∉ Nat.toDigits 10 (url.port.getD p.defaultPort) := fun hm =>
        absurd (Nat.isDigit_of_mem_toDigits (by decide) (Nat.le_refl _) hm) (by decide)
      refine ⟨by simpa using ⟨url.host_plain host hhost, hport⟩, ?_⟩
      by_cases huser : url.username = "" <;> simp [Target.poolKey, huser]

/-- Neither part of a key has the `@` that joins them. -/
theorem key_inj {user user' addr addr' : String} (huser : '@' ∉ user.toList)
    (haddr : '@' ∉ addr.toList) (haddr' : '@' ∉ addr'.toList)
    (h : (if user = "" then addr else user ++ "@" ++ addr) =
      if user' = "" then addr' else user' ++ "@" ++ addr') : addr = addr' ∧ user = user' := by
  split at h <;> split at h
  · next hu hu' => exact ⟨h, hu.trans hu'.symm⟩
  · simp [h] at haddr
  · simp [← h] at haddr'
  · have hlist : user.toList ++ '@' :: addr.toList = user'.toList ++ '@' :: addr'.toList := by
      simpa using congrArg String.toList h
    obtain ⟨huser, -, haddr⟩ := (List.append_cons_inj_of_notMem huser haddr).1 hlist
    exact ⟨String.toList_inj.1 haddr, String.toList_inj.1 huser⟩

/-- A request for one URL that is served on a connection opened for another. -/
theorem same_credentials_iff {raw₁ raw₂ : String} {url₁ url₂ : Url} {conn : Target} {pooled : Bool}
    (hurl₁ : parse raw₁ = .ok url₁) (hurl₂ : parse raw₂ = .ok url₂)
    (hopened : p.parseTarget parse raw₁ = .ok conn) (hrequest : p.parseTarget parse raw₂ = .ok t)
    (h : (pooling p parse).Reachable s) (hserved : (t, .exchange conn pooled) ∈ s.running) :
    conn.addr = t.addr ∧ url₁.username = url₂.username ∧ url₁.password = url₂.password ↔
      url₁.password = url₂.password := by
  have hkey := (filed_of_reachable h).used t conn pooled hserved
  obtain ⟨haddr₁, hkey₁⟩ := of_parseTarget hurl₁ hopened
  obtain ⟨haddr₂, hkey₂⟩ := of_parseTarget hurl₂ hrequest
  rw [hkey₁, hkey₂] at hkey
  obtain ⟨haddr, huser⟩ := key_inj url₁.username_plain haddr₁ haddr₂ hkey
  simp [haddr, huser]

end

def sampleUrl (port : Option ℕ) (password : String) : Url :=
  ⟨"mqtt", some "h", port, "u", some password, by decide, by decide⟩

/-- URLs that differ in the port as it is written, and in the password. -/
def sampleParse (raw : String) : Except String Url :=
  if raw = "mqtt://u:a@h" then .ok (sampleUrl none "a")
  else if raw = "mqtt://u:a@h:1883" then .ok (sampleUrl (some 1883) "a")
  else if raw = "mqtt://u:b@h" then .ok (sampleUrl none "b")
  else .error "relative URL without a base"

def sampleTarget (password : String) : Target := ⟨"h:1883", some ⟨"u", some password⟩⟩

theorem same_credentials_iff_sample :
    ∃ s, (pooling .mqtt sampleParse).Reachable s ∧
      (sampleTarget "a", .exchange (sampleTarget "a") true) ∈ s.running ∧
        (sampleUrl none "a").username = (sampleUrl (some 1883) "a").username := by
  obtain ⟨s, hs, hserved⟩ := (pooling .mqtt sampleParse).exists_reachable_of_run rfl
    [.request "mqtt://u:a@h", .proceed 0 true, .proceed 0 true, .request "mqtt://u:a@h:1883"]
    (fun s => (sampleTarget "a", .exchange (sampleTarget "a") true) ∈ s.running) (by decide +kernel)
  have hurl₁ : sampleParse "mqtt://u:a@h" = .ok (sampleUrl none "a") := if_pos rfl
  have hurl₂ : sampleParse "mqtt://u:a@h:1883" = .ok (sampleUrl (some 1883) "a") := rfl
  have htarget₁ : Plugin.mqtt.parseTarget sampleParse "mqtt://u:a@h" = .ok (sampleTarget "a") := by
    decide +kernel
  have htarget₂ : Plugin.mqtt.parseTarget sampleParse "mqtt://u:a@h:1883" =
      .ok (sampleTarget "a") := by
    decide +kernel
  exact ⟨s, hs, hserved,
    ((same_credentials_iff hurl₁ hurl₂ htarget₁ htarget₂ hs hserved).2 rfl).2.1⟩

/-- A request with one password is served on a connection opened with another. -/
theorem password_shared :
    ∃ s, (pooling .mqtt sampleParse).Reachable s ∧
      (sampleTarget "b", .exchange (sampleTarget "a") true) ∈ s.running ∧
        (sampleUrl none "b").password ≠ (sampleUrl none "a").password := by
  obtain ⟨s, hs, hserved⟩ := (pooling .mqtt sampleParse).exists_reachable_of_run rfl
    [.request "mqtt://u:a@h", .proceed 0 true, .proceed 0 true, .request "mqtt://u:b@h"]
    (fun s => (sampleTarget "b", .exchange (sampleTarget "a") true) ∈ s.running) (by decide +kernel)
  exact ⟨s, hs, hserved, by decide⟩

end Loadr.Credentials
