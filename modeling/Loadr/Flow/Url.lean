import Loadr.Flow.Metrics

/-!
# Request URLs

How `prepare` makes the URL of a request from the rendered pieces: a URL without `://` is joined to
the base URL, and the query parameters are appended, percent-encoded.
The fragment of a URL begins at the first `#`, the query at the first `?` before it.
-/

namespace Loadr.Flow

open List

/-! ## Percent-encoding -/

def utf8 (s : String) : List UInt8 := s.toList.flatMap String.utf8EncodeChar

def hexDigit (n : ℕ) : Char :=
  if n < 10 then Char.ofNat (48 + n) else Char.ofNat (55 + n)

/-- Letters, digits and the marks that stand for themselves. -/
def isUnreserved (b : ℕ) : Bool :=
  (65 ≤ b && b ≤ 90) || (97 ≤ b && b ≤ 122) || (48 ≤ b && b ≤ 57) || b = 45 || b = 95 || b = 46 ||
    b = 126

def encodeByte (b : ℕ) : List Char :=
  if isUnreserved b then [Char.ofNat b]
  else if b = 32 then ['%', '2', '0']
  else ['%', hexDigit (b / 16), hexDigit (b % 16)]

def urlencode (s : String) : String := String.ofList ((utf8 s).flatMap fun b => encodeByte b.toNat)

/-! ## Building -/

def trimStartMatches (c : Char) (s : String) : String := String.ofList (s.toList.dropWhile (· = c))

def trimEndMatches (c : Char) (s : String) : String := String.ofList (s.toList.rdropWhile (· = c))

def joinBase (base url : String) : String :=
  trimEndMatches '/' base ++ "/" ++ trimStartMatches '/' url

def paramPair (param : String × String) : String := urlencode param.1 ++ "=" ++ urlencode param.2

def joinPairs (pairs : List String) : String :=
  String.ofList (['&'].intercalate (pairs.map String.toList))

def appendParams (url : String) (pairs : List String) : String :=
  if pairs = [] then url
  else url ++ (if '?' ∈ url.toList then "&" else "?") ++ joinPairs pairs

/-- The URL of a request, from the base URL, the URL of the step and the parameters as they are
rendered. -/
def requestUrl (base : Option String) (url : String) (params : List (String × String)) : String :=
  let url := match base with
    | some base => if hasText url "://" then url else joinBase base url
    | none => url
  appendParams url (params.map paramPair)

/-! ## The parts of a URL -/

def beforeFragment (url : List Char) : List Char := url.takeWhile (· ≠ '#')

def fragment (url : List Char) : List Char := url.dropWhile (· ≠ '#')

def beforeQuery (url : List Char) : List Char := (beforeFragment url).takeWhile (· ≠ '?')

def queryPairs (url : List Char) : List (List Char) :=
  match (beforeFragment url).dropWhile (· ≠ '?') with
  | [] => []
  | _ :: query => query.splitOn '&'

/-- A scheme and `://` at the start. -/
def hasScheme (url : String) : Bool :=
  match url.toList with
  | c :: rest => c.isAlpha && "://".toList.isPrefixOf
      (rest.dropWhile fun c => c.isAlphanum || c = '+' || c = '-' || c = '.')
  | [] => false

/-- What is sent for a relative URL: the base URL joined with it by one slash, with the parameters
after its own query pairs. -/
structure Resolved (base url : String) (params : List (String × String)) (sent : String) :
    Prop where
  location : beforeQuery sent.toList = beforeQuery (joinBase base url).toList
  pairs : queryPairs sent.toList = queryPairs (joinBase base url).toList ++
    params.map fun param => (paramPair param).toList
  fragment : fragment sent.toList = fragment (joinBase base url).toList

/-! ## What encoded texts do not contain -/

def isMark (c : Char) : Bool := c = '#' || c = '?' || c = '&'

theorem isMark_encodeByte : ∀ b < 256, (encodeByte b).any isMark = false := by
  decide +kernel

theorem isMark_urlencode (s : String) : ∀ c ∈ (urlencode s).toList, isMark c = false := by
  intro c hc
  rw [urlencode, String.toList_ofList, mem_flatMap] at hc
  obtain ⟨b, -, hc⟩ := hc
  have hmarks := any_eq_false.1 (isMark_encodeByte b.toNat b.toNat_lt) c hc
  exact Bool.eq_false_iff.2 hmarks

theorem isMark_paramPair (param : String × String) :
    ∀ c ∈ (paramPair param).toList, isMark c = false := by
  intro c hc
  simp only [paramPair, String.toList_append, mem_append] at hc
  rcases hc with (hc | hc) | hc
  · exact isMark_urlencode _ c hc
  · rw [mem_singleton.1 hc]
    rfl
  · exact isMark_urlencode _ c hc

/-! ## Parts of what is put together -/

section Parts

variable {pairs : List (List Char)} {u : List Char}

def paramSuffix (text : List Char) (pairs : List (List Char)) : List Char :=
  if pairs = [] then [] else (if '?' ∈ text then '&' else '?') :: ['&'].intercalate pairs

def withQuery (u : List Char) (pairs : List (List Char)) : List Char :=
  beforeFragment u ++ paramSuffix (beforeFragment u) pairs ++ fragment u

def compose (location : List Char) (pairs : List (List Char)) (fragment : List Char) : List Char :=
  location ++ (if pairs = [] then [] else '?' :: ['&'].intercalate pairs) ++ fragment

theorem beforeFragment_append_fragment (u : List Char) : beforeFragment u ++ fragment u = u :=
  takeWhile_append_dropWhile

theorem not_mem_beforeFragment (u : List Char) : '#' ∉ beforeFragment u := fun h => by
  simpa using mem_takeWhile_imp h

theorem head_of_dropWhile {α : Type} {p : α → Bool} {l rest : List α} {c : α}
    (h : l.dropWhile p = c :: rest) : p c = false := by
  have hhead := head?_dropWhile_not p l
  rw [h] at hhead
  simpa using hhead

theorem all_ne {c : Char} {l : List Char} : (∀ x ∈ l, decide (x ≠ c) = true) ↔ c ∉ l := by
  simp only [decide_eq_true_eq]
  exact ⟨fun h hc => h c hc rfl, fun h x hx he => h (he ▸ hx)⟩

theorem compose_parts (u : List Char) : compose (beforeQuery u) (queryPairs u) (fragment u) = u := by
  have hsplit : (beforeFragment u).takeWhile (· ≠ '?') ++ (beforeFragment u).dropWhile (· ≠ '?') =
      beforeFragment u := takeWhile_append_dropWhile
  have hquery : (if queryPairs u = [] then [] else '?' :: ['&'].intercalate (queryPairs u)) =
      (beforeFragment u).dropWhile (· ≠ '?') := by
    unfold queryPairs
    cases hq : (beforeFragment u).dropWhile (· ≠ '?') with
    | nil => rfl
    | cons c query =>
      have hc : c = '?' := by simpa using head_of_dropWhile hq
      rw [if_neg (splitOn_ne_nil _ _), intercalate_splitOn, hc]
  rw [compose, hquery, beforeQuery, hsplit, beforeFragment_append_fragment]

def Unmarked (pairs : List (List Char)) : Prop := ∀ p ∈ pairs, ∀ c ∈ p, isMark c = false

theorem Unmarked.not_mem {c : Char} (h : Unmarked pairs) (hc : isMark c = true) {p : List Char}
    (hp : p ∈ pairs) : c ∉ p := fun hcp => by
  simp [h p hp c hcp] at hc

theorem mem_intercalate {sep : Char} {c : Char} (h : c ∈ [sep].intercalate pairs) :
    c = sep ∨ ∃ p ∈ pairs, c ∈ p := by
  induction pairs with
  | nil => simp [List.intercalate] at h
  | cons p pairs ih =>
    rcases eq_or_ne pairs [] with rfl | hne
    · exact .inr ⟨p, by simp, by simpa [List.intercalate] using h⟩
    · rw [intercalate_cons_of_ne_nil hne] at h
      rcases mem_append.1 h with h | h
      · rcases mem_append.1 h with h | h
        · exact .inr ⟨p, by simp, h⟩
        · exact .inl (mem_singleton.1 h)
      · rcases ih h with h | ⟨q, hq, h⟩
        · exact .inl h
        · exact .inr ⟨q, mem_cons_of_mem p hq, h⟩

theorem not_mem_paramSuffix (h : Unmarked pairs) (text : List Char) :
    '#' ∉ paramSuffix text pairs := by
  intro hmem
  unfold paramSuffix at hmem
  split_ifs at hmem with hnil hq
  · cases hmem
  all_goals
    rcases mem_cons.1 hmem with he | hmem
    · simp at he
    · rcases mem_intercalate hmem with he | ⟨p, hp, hmem⟩
      · simp at he
      · exact h.not_mem (by decide) hp hmem

theorem cut_fragment {text rest : List Char} (htext : '#' ∉ text)
    (hrest : rest = fragment rest) :
    beforeFragment (text ++ rest) = text ∧ fragment (text ++ rest) = rest := by
  have hbefore : beforeFragment rest = [] := by
    have hsplit := beforeFragment_append_fragment rest
    rw [← hrest] at hsplit
    simpa using hsplit
  unfold beforeFragment fragment at *
  rw [takeWhile_append_of_pos (all_ne.2 htext), dropWhile_append_of_pos (all_ne.2 htext), hbefore,
    ← hrest]
  exact ⟨append_nil text, rfl⟩

theorem fragment_fragment (u : List Char) : fragment u = fragment (fragment u) :=
  (dropWhile_idempotent (fun c => decide (c ≠ '#')) u).symm

def pairsIn (text : List Char) : List (List Char) :=
  match text.dropWhile (· ≠ '?') with
  | [] => []
  | _ :: query => query.splitOn '&'

theorem splitOn_intercalate (h : Unmarked pairs) (hne : pairs ≠ []) :
    (['&'].intercalate pairs).splitOn '&' = pairs :=
  List.splitOn_intercalate '&' (fun _ hp => h.not_mem (by decide) hp) hne

theorem cut_query (h : Unmarked pairs) (text : List Char) :
    (text ++ paramSuffix text pairs).takeWhile (· ≠ '?') = text.takeWhile (· ≠ '?') ∧
      pairsIn (text ++ paramSuffix text pairs) = pairsIn text ++ pairs := by
  rcases eq_or_ne pairs [] with rfl | hne
  · simp [paramSuffix]
  unfold paramSuffix pairsIn
  rw [if_neg hne]
  by_cases hq : '?' ∈ text
  · have hdrop : text.dropWhile (· ≠ '?') ≠ [] := by
      rwa [ne_eq, dropWhile_eq_nil_iff, all_ne, not_not]
    obtain ⟨c, query, hquery⟩ := exists_cons_of_ne_nil hdrop
    have htake : (text.takeWhile (· ≠ '?')).length ≠ text.length := by
      have hlength := congrArg List.length (takeWhile_append_dropWhile (p := (· ≠ '?'))
        (l := text))
      rw [hquery, length_append, length_cons] at hlength
      omega
    rw [if_pos hq, takeWhile_append, if_neg htake, dropWhile_append, hquery]
    refine ⟨rfl, ?_⟩
    simp only [isEmpty_cons, Bool.false_eq_true, if_false, cons_append, List.splitOn]
    rw [splitOnP_append_cons query _ (by simp)]
    exact congrArg (_ ++ ·) (splitOn_intercalate h hne)
  · have hall := all_ne.2 hq
    rw [if_neg hq, takeWhile_append_of_pos hall, dropWhile_append_of_pos hall,
      takeWhile_eq_self_iff.2 hall, dropWhile_eq_nil_iff.2 hall]
    simp [splitOn_intercalate h hne]

theorem parts_withQuery (h : Unmarked pairs) (u : List Char) :
    beforeQuery (withQuery u pairs) = beforeQuery u ∧
      queryPairs (withQuery u pairs) = queryPairs u ++ pairs ∧
      fragment (withQuery u pairs) = fragment u := by
  have htext : '#' ∉ beforeFragment u ++ paramSuffix (beforeFragment u) pairs := by
    rw [mem_append, not_or]
    exact ⟨not_mem_beforeFragment u, not_mem_paramSuffix h _⟩
  obtain ⟨hbefore, hfragment⟩ := cut_fragment htext (fragment_fragment u)
  obtain ⟨hlocation, hpairs⟩ := cut_query h (beforeFragment u)
  refine ⟨?_, ?_, hfragment⟩
  · rw [beforeQuery, withQuery, hbefore, hlocation, beforeQuery]
  · show pairsIn (beforeFragment (withQuery u pairs)) = pairsIn (beforeFragment u) ++ pairs
    rw [withQuery, hbefore, hpairs]

theorem eq_withQuery_iff (h : Unmarked pairs) {sent : List Char} :
    (beforeQuery sent = beforeQuery u ∧ queryPairs sent = queryPairs u ++ pairs ∧
      fragment sent = fragment u) ↔ sent = withQuery u pairs := by
  obtain ⟨hlocation, hpairs, hfragment⟩ := parts_withQuery h u
  constructor
  · rintro ⟨h₁, h₂, h₃⟩
    rw [← compose_parts sent, h₁, h₂, h₃, ← hlocation, ← hpairs, ← hfragment, compose_parts]
  · rintro rfl
    exact ⟨hlocation, hpairs, hfragment⟩

/-! ## What the concatenation gives -/

theorem length_paramSuffix (text text' : List Char) (pairs : List (List Char)) :
    (paramSuffix text pairs).length = (paramSuffix text' pairs).length := by
  unfold paramSuffix
  split_ifs <;> rfl

theorem paramSuffix_eq_cons (hne : pairs ≠ []) (text : List Char) :
    ∃ c more, c ≠ '#' ∧ c ≠ '/' ∧ paramSuffix text pairs = c :: more := by
  unfold paramSuffix
  rw [if_neg hne]
  split_ifs
  · exact ⟨'&', _, by decide, by decide, rfl⟩
  · exact ⟨'?', _, by decide, by decide, rfl⟩

theorem fragment_ne_nil (hmem : '#' ∈ u) : fragment u ≠ [] := by
  rwa [fragment, ne_eq, dropWhile_eq_nil_iff, all_ne, not_not]

theorem withQuery_of_no_fragment (hu : '#' ∉ u) : withQuery u pairs = u ++ paramSuffix u pairs := by
  obtain ⟨hbefore, hfragment⟩ := cut_fragment hu (rfl : [] = fragment [])
  rw [append_nil] at hbefore hfragment
  rw [withQuery, hbefore, hfragment, append_nil]

/-- Appended parameters are in the query unless there is a fragment. -/
theorem append_eq_withQuery_iff :
    u ++ paramSuffix u pairs = withQuery u pairs ↔ pairs = [] ∨ '#' ∉ u := by
  constructor
  · intro h
    by_contra hcon
    obtain ⟨hne, hmem⟩ := not_or.1 hcon
    rw [not_not] at hmem
    -- Where the fragment begins there would be the mark of the parameters.
    obtain ⟨c, rest, hrest⟩ := exists_cons_of_ne_nil (fragment_ne_nil hmem)
    obtain ⟨c', more, hc', -, hmore⟩ := paramSuffix_eq_cons hne (beforeFragment u)
    have hc : c = '#' := by simpa using head_of_dropWhile hrest
    nth_rewrite 1 [← beforeFragment_append_fragment u] at h
    rw [withQuery, append_assoc, append_assoc, append_cancel_left_eq, hrest, hmore,
      cons_append, cons_append] at h
    exact hc' ((List.cons.inj h).1.symm.trans hc)
  · rintro (rfl | hu)
    · simp [withQuery, paramSuffix, beforeFragment_append_fragment]
    · exact (withQuery_of_no_fragment hu).symm

end Parts

theorem toList_appendParams (url : String) (pairs : List String) :
    (appendParams url pairs).toList =
      url.toList ++ paramSuffix url.toList (pairs.map String.toList) := by
  unfold appendParams paramSuffix
  simp only [map_eq_nil_iff]
  split_ifs with hnil hq <;> simp [joinPairs]

/-! ## A URL that is taken for an absolute one -/

section Slashes

variable {base url : List Char}

def joined (base url : List Char) : List Char :=
  base.rdropWhile (· = '/') ++ '/' :: url.dropWhile (· = '/')

theorem toList_joinBase (base url : String) :
    (joinBase base url).toList = joined base.toList url.toList := by
  simp [joinBase, trimEndMatches, trimStartMatches, joined]

theorem mem_trimmed {p : Char → Bool} {c : Char} (hc : p c = false) (l : List Char) :
    c ∈ l.dropWhile p ↔ c ∈ l := by
  constructor
  · exact fun h => (dropWhile_sublist p).subset h
  · intro h
    rw [← takeWhile_append_dropWhile (p := p) (l := l)] at h
    rcases mem_append.1 h with h | h
    · exact absurd (mem_takeWhile_imp h) (by simp [hc])
    · exact h

theorem mem_joined : '#' ∈ joined base url ↔ '#' ∈ base ∨ '#' ∈ url := by
  rw [joined, mem_append, mem_cons, mem_trimmed (by decide), List.rdropWhile,
    mem_reverse, mem_trimmed (by decide), mem_reverse]
  simp

theorem slashes_of_isPrefixOf {k : ℕ} {p rest : List Char}
    (hp : p <+: List.replicate k '/' ++ rest) (hlen : p.length ≤ k) : ∀ c ∈ p, c = '/' := by
  have hpre : p <+: List.replicate k '/' :=
    prefix_of_prefix_length_le hp (prefix_append _ _) (by simpa using hlen)
  exact fun c hc => eq_of_mem_replicate (hpre.subset hc)

theorem joined_eq_self (hbase : ∀ c ∈ base, c = '/') (hurl : url.takeWhile (· = '/') = ['/']) :
    joined base url = url := by
  have htrim : base.rdropWhile (· = '/') = [] :=
    rdropWhile_eq_nil_iff.2 fun c hc => by simpa using hbase c hc
  rw [joined, htrim, nil_append]
  conv_rhs => rw [← takeWhile_append_dropWhile (p := (· = '/')) (l := url), hurl]
  rfl

theorem takeWhile_slashes (url : List Char) :
    url.takeWhile (· = '/') = List.replicate (url.takeWhile (· = '/')).length '/' :=
  eq_replicate_of_mem fun c hc => by simpa using mem_takeWhile_imp hc

theorem base_nil_of_isPrefixOf {k : ℕ} {pairs : List (List Char)} {rest : List Char}
    (hlast : ∀ h : base ≠ [], base.getLast h ≠ '/') (hk : k = base.length + 1)
    (h : withQuery (base ++ rest) pairs <+: List.replicate k '/' ++ url) : base = [] := by
  by_contra hne
  by_cases hmark : pairs = [] ∨ '#' ∉ base
  · -- The base is there as it stands, its last character included.
    have hpre : base <+: withQuery (base ++ rest) pairs := by
      rcases hmark with rfl | hmark
      · rw [← append_eq_withQuery_iff.2 (.inl rfl), append_assoc]
        exact prefix_append _ _
      · rw [withQuery, beforeFragment, takeWhile_append_of_pos (all_ne.2 hmark), append_assoc,
          append_assoc]
        exact prefix_append _ _
    exact hlast hne (slashes_of_isPrefixOf (hpre.trans h) (by omega) _ (getLast_mem hne))
  · -- The mark of the parameters stands in the place of the fragment of the base.
    obtain ⟨hpairs, hmark⟩ := not_or.1 hmark
    rw [not_not] at hmark
    have hshort : (beforeFragment base).length < base.length := by
      have hsplit := congrArg List.length (beforeFragment_append_fragment base)
      have hfragment := length_pos_iff.2 (fragment_ne_nil hmark)
      rw [length_append] at hsplit
      omega
    have hbefore : beforeFragment (base ++ rest) = beforeFragment base := by
      rw [beforeFragment, takeWhile_append, if_neg (by exact hshort.ne)]
      rfl
    obtain ⟨c, more, -, hc, hsuffix⟩ := paramSuffix_eq_cons hpairs (beforeFragment base)
    have hpre : beforeFragment base ++ [c] <+: withQuery (base ++ rest) pairs := by
      rw [withQuery, hbefore, hsuffix]
      exact ⟨more ++ fragment (base ++ rest), by simp⟩
    refine hc (slashes_of_isPrefixOf (hpre.trans h) ?_ c (by simp))
    rw [length_append, length_singleton]
    omega

theorem url_eq_withQuery_iff {pairs : List (List Char)} :
    url ++ paramSuffix url pairs = withQuery (joined base url) pairs ↔
      ((∀ c ∈ base, c = '/') ∧ url.takeWhile (· = '/') = ['/']) ∧
        (pairs = [] ∨ '#' ∉ joined base url) := by
  constructor
  · intro h
    have hlength : (url.takeWhile (· = '/')).length = (base.rdropWhile (· = '/')).length + 1 := by
      have hurl := congrArg List.length
        (takeWhile_append_dropWhile (p := (· = '/')) (l := url))
      have hjoined := congrArg List.length (beforeFragment_append_fragment (joined base url))
      have hsides := congrArg List.length h
      have hsuffix := length_paramSuffix url (beforeFragment (joined base url)) pairs
      simp only [withQuery, length_append] at hsides
      simp only [joined, length_append, length_cons] at hurl hjoined hsides hsuffix
      omega
    have hnil : base.rdropWhile (· = '/') = [] := by
      have hpre : withQuery (joined base url) pairs <+: List.replicate
          (url.takeWhile (· = '/')).length '/' ++ (url.dropWhile (· = '/') ++
            paramSuffix url pairs) := by
        rw [← takeWhile_slashes, ← append_assoc, takeWhile_append_dropWhile, h]
      refine base_nil_of_isPrefixOf (fun hne => ?_) hlength hpre
      simpa using rdropWhile_last_not (· = '/') base hne
    rw [hnil] at hlength
    have hslash : url.takeWhile (· = '/') = ['/'] := by
      rw [takeWhile_slashes, hlength]
      rfl
    have hbase : ∀ c ∈ base, c = '/' := fun c hc => by
      simpa using rdropWhile_eq_nil_iff.1 hnil c hc
    refine ⟨⟨hbase, hslash⟩, ?_⟩
    rw [joined_eq_self hbase hslash] at h ⊢
    exact append_eq_withQuery_iff.1 h
  · rintro ⟨⟨hbase, hurl⟩, hpairs⟩
    rw [joined_eq_self hbase hurl] at hpairs ⊢
    exact append_eq_withQuery_iff.2 hpairs

end Slashes

/-! ## Resolution -/

section Resolution

variable {base url : String} {params : List (String × String)}

theorem unmarked_params (params : List (String × String)) :
    Unmarked ((params.map paramPair).map String.toList) := by
  intro p hp
  simp only [mem_map, exists_exists_and_eq_and] at hp
  obtain ⟨param, -, rfl⟩ := hp
  exact isMark_paramPair param

theorem resolved_iff_eq {sent : String} : Resolved base url params sent ↔
    sent.toList = withQuery (joined base.toList url.toList)
      ((params.map paramPair).map String.toList) := by
  rw [← eq_withQuery_iff (unmarked_params params), ← toList_joinBase, map_map]
  exact ⟨fun h => ⟨h.location, h.pairs, h.fragment⟩, fun h => ⟨h.1, h.2.1, h.2.2⟩⟩

/-- A relative URL is sent resolved, with the parameters in its query, exactly if `://` does not
occur in it, or stands after one slash with nothing but slashes for a base, and there is no fragment
for the parameters to get into. -/
theorem resolved_iff (base url : String) (params : List (String × String)) :
    Resolved base url params (requestUrl (some base) url params) ↔
      (hasText url "://" = true →
        (∀ c ∈ base.toList, c = '/') ∧ url.toList.takeWhile (· = '/') = ['/']) ∧
      (params = [] ∨ '#' ∉ base.toList ∧ '#' ∉ url.toList) := by
  have hnil : (params.map paramPair).map String.toList = [] ↔ params = [] := by simp
  have hfragment : '#' ∉ joined base.toList url.toList ↔
      '#' ∉ base.toList ∧ '#' ∉ url.toList := by rw [mem_joined, not_or]
  rw [resolved_iff_eq, requestUrl, toList_appendParams]
  by_cases htext : hasText url "://" = true
  · simp only [htext, if_true, forall_const]
    rw [url_eq_withQuery_iff, hnil, hfragment]
  · simp only [htext, Bool.false_eq_true, if_false, false_imp_iff, true_and]
    rw [toList_joinBase, append_eq_withQuery_iff, hnil, hfragment]

/-- A login page that is told where to return to is taken for an absolute URL, and a parameter of a
page with an anchor is appended to the anchor. -/
theorem unresolved :
    (hasScheme "/login?next=http://x" = false ∧
      requestUrl (some "http://h") "/login?next=http://x" [] = "/login?next=http://x" ∧
      ¬ Resolved "http://h" "/login?next=http://x" []
        (requestUrl (some "http://h") "/login?next=http://x" [])) ∧
    hasScheme "/page#top" = false ∧
      requestUrl (some "http://h") "/page#top" [("q", "1")] = "http://h/page#top?q=1" ∧
      ¬ Resolved "http://h" "/page#top" [("q", "1")]
        (requestUrl (some "http://h") "/page#top" [("q", "1")]) := by
  refine ⟨⟨by decide +kernel, by decide +kernel, fun h => ?_⟩, by decide +kernel,
    by decide +kernel, fun h => ?_⟩
  · exact absurd h.location (by decide +kernel)
  · exact absurd h.pairs (by decide +kernel)

end Resolution

end Loadr.Flow
