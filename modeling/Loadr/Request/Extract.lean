import Loadr.Flow.Url

/-!
# Extracting values

The text functions of the extractors.  `boundary_matches` collects what stands between two markers;
validation accepts any markers, and only two empty ones keep the loop at one place for ever
(`boundaryMatches_exact_iff`).  What `url_encode` writes is read back by `url_decode`
(`percent_coding`).
-/

namespace Loadr.Flow

open List Option

/-! ## Markers of a plan -/

structure ChainSpec where
  jmespath : Option String := none
  jsonpath : Option String := none
  regex : Option String := none
  header : Option String := none
  css : Option String := none
  xpath : Option String := none
  left : Option String := none
  right : Option String := none

def ChainSpec.sources (c : ChainSpec) : List String :=
  [(c.jmespath.isSome, "jmespath"), (c.jsonpath.isSome, "jsonpath"), (c.regex.isSome, "regex"),
    (c.header.isSome, "header"), (c.css.isSome, "css"), (c.xpath.isSome, "xpath"),
    (c.left.isSome || c.right.isSome, "boundary")].filterMap fun s => if s.1 then some s.2 else none

def ChainSpec.check (c : ChainSpec) : List String :=
  (match c.sources with
    | [] => ["chain has no source; set one of `jmespath`, `jsonpath`, `regex`, " ++
        "`header`, `css`, `xpath` or `left`/`right`"]
    | [_] => []
    | sources => ["chain has multiple sources (" ++ ", ".intercalate sources ++ "); pick one"]) ++
  if c.left.isSome ≠ c.right.isSome then ["boundary chain needs both `left` and `right`"] else []

/-- An extractor that may be one with boundaries. -/
inductive Extractor
  | classic (left right : String)
  | chain (c : ChainSpec)

def Extractor.errors : Extractor → List String
  | classic _ _ => []
  | chain c => c.check

def Extractor.boundaries : Extractor → Option (String × String)
  | classic left right => some (left, right)
  | chain c => c.left.bind fun left => c.right.map fun right => (left, right)

/-! ## Between two markers -/

/-- What is before the first occurrence of a text, and what is behind it. -/
def cut (pat : List Char) : List Char → Option (List Char × List Char)
  | [] => if pat = [] then some ([], []) else none
  | c :: text =>
    if pat.isPrefixOf (c :: text) then some ([], (c :: text).drop pat.length)
    else (cut pat text).map fun parts => (c :: parts.1, parts.2)

/-- The turns of the loop, as many as there is fuel for. -/
def boundaryMatches (left right : String) : ℕ → List Char → Option (List String)
  | 0, _ => none
  | fuel + 1, text =>
    match cut left.toList text with
    | none => some []
    | some (_, rest) => match cut right.toList rest with
      | none => some []
      | some (value, rest) => (boundaryMatches left right fuel rest).map (String.ofList value :: ·)

/-- An occurrence of `pat`, with the text before and behind it, and none begins further left. -/
structure FirstAt (pat text before after : List Char) : Prop where
  occurs : text = before ++ (pat ++ after)
  leftmost : ∀ b a, text = b ++ (pat ++ a) → before.length ≤ b.length

/-- The texts that `left` and the next `right` enclose, from the left and without overlap. -/
inductive Enclosed (left right : List Char) : List Char → List String → Prop
  | done {text : List Char} (h : ¬ ∃ a v b, text = a ++ (left ++ (v ++ (right ++ b)))) :
      Enclosed left right text []
  | next {text before rest value tail : List Char} {values : List String}
      (hleft : FirstAt left text before rest) (hright : FirstAt right rest value tail)
      (h : Enclosed left right tail values) :
      Enclosed left right text (String.ofList value :: values)

section Cut

variable {pat : List Char}

theorem cut_append (pat after : List Char) : cut pat (pat ++ after) = some ([], after) := by
  cases h : pat ++ after with
  | nil =>
    obtain ⟨rfl, rfl⟩ := append_eq_nil_iff.1 h
    rfl
  | cons c text =>
    have hpat : pat.isPrefixOf (c :: text) = true := isPrefixOf_iff_prefix.2 ⟨after, h⟩
    rw [cut, if_pos hpat, ← h, drop_left]

theorem cut_sound {text : List Char} {parts : List Char × List Char}
    (h : cut pat text = some parts) : text = parts.1 ++ (pat ++ parts.2) := by
  induction text generalizing parts with
  | nil =>
    rw [cut] at h
    split_ifs at h with hpat
    cases h
    rw [hpat]
    rfl
  | cons c text ih =>
    rw [cut] at h
    split_ifs at h with hpat
    · obtain ⟨after, hafter⟩ := isPrefixOf_iff_prefix.1 hpat
      cases h
      rw [← hafter, drop_left]
      rfl
    · obtain ⟨rest, hrest, rfl⟩ := map_eq_some_iff.1 h
      exact congrArg (c :: ·) (ih hrest)

theorem cut_complete (before after : List Char) :
    ∃ parts, cut pat (before ++ (pat ++ after)) = some parts ∧ parts.1.length ≤ before.length := by
  induction before with
  | nil => exact ⟨_, cut_append pat after, Nat.zero_le _⟩
  | cons c before ih =>
    obtain ⟨parts, hparts, hle⟩ := ih
    rw [cons_append, cut]
    split_ifs with hpat
    · exact ⟨_, rfl, Nat.zero_le _⟩
    · exact ⟨_, congrArg _ hparts, Nat.succ_le_succ hle⟩

theorem firstAt_of_cut {text before after : List Char} (h : cut pat text = some (before, after)) :
    FirstAt pat text before after := by
  refine ⟨cut_sound h, fun b a hb => ?_⟩
  obtain ⟨parts, hparts, hle⟩ := @cut_complete pat b a
  rw [← hb, h] at hparts
  cases hparts
  exact hle

theorem not_occurs_of_cut {text : List Char} (h : cut pat text = none) (before after : List Char) :
    text ≠ before ++ (pat ++ after) := by
  rintro rfl
  obtain ⟨parts, hparts, -⟩ := @cut_complete pat before after
  rw [h] at hparts
  cases hparts

end Cut

section Matches

variable {left right : String} {text : List Char}

theorem FirstAt.suffix {pat before rest b a : List Char} (h : FirstAt pat text before rest)
    (hab : text = b ++ (pat ++ a)) : a <:+ rest := by
  have hle := h.leftmost b a hab
  have hlen := congrArg List.length (h.occurs.symm.trans hab)
  have ha : a <:+ text := ⟨b ++ pat, by rw [hab, append_assoc]⟩
  have hrest : rest <:+ text := ⟨before ++ pat, by rw [h.occurs, append_assoc]⟩
  simp only [length_append] at hlen
  exact suffix_of_suffix_length_le ha hrest (by omega)

theorem enclosed_of_boundaryMatches {fuel : ℕ} {values : List String}
    (h : boundaryMatches left right fuel text = some values) :
    Enclosed left.toList right.toList text values := by
  induction fuel generalizing text values with
  | zero => cases h
  | succ fuel ih =>
    unfold boundaryMatches at h
    split at h
    · rename_i hleft
      cases h
      refine .done ?_
      rintro ⟨a, v, b, hab⟩
      exact not_occurs_of_cut hleft _ _ hab
    · rename_i before rest hleft
      split at h
      · rename_i hright
        cases h
        refine .done ?_
        rintro ⟨a, v, b, hab⟩
        obtain ⟨w, hw⟩ := (firstAt_of_cut hleft).suffix hab
        rw [← append_assoc] at hw
        exact not_occurs_of_cut hright _ _ hw.symm
      · rename_i value tail hright
        obtain ⟨more, hmore, rfl⟩ := map_eq_some_iff.1 h
        exact .next (firstAt_of_cut hleft) (firstAt_of_cut hright) (ih hmore)

theorem boundaryMatches_isSome (h : ¬ (left = "" ∧ right = "")) {fuel : ℕ}
    (hfuel : text.length < fuel) : (boundaryMatches left right fuel text).isSome := by
  have hpos : 0 < left.toList.length + right.toList.length := by
    by_contra hzero
    refine h ⟨String.toList_eq_nil_iff.1 ?_, String.toList_eq_nil_iff.1 ?_⟩ <;>
      exact eq_nil_of_length_eq_zero (by omega)
  induction fuel generalizing text with
  | zero => omega
  | succ fuel ih =>
    unfold boundaryMatches
    split
    · rfl
    · rename_i before rest hleft
      split
      · rfl
      · rename_i value tail hright
        have hrest := congrArg List.length (cut_sound hleft)
        have htail := congrArg List.length (cut_sound hright)
        simp only [length_append] at hrest htail
        rw [isSome_map]
        exact ih (by omega)

theorem boundaryMatches_empty (fuel : ℕ) (text : List Char) :
    boundaryMatches "" "" fuel text = none := by
  have hcut (text : List Char) : cut [] text = some ([], text) := cut_append [] text
  induction fuel with
  | zero => rfl
  | succ fuel ih => simp only [boundaryMatches, String.toList_empty, hcut, ih, map_none]

end Matches

/-- The loop ends, and its values are those that the markers enclose. -/
structure BoundaryExact (left right : String) (text : String) : Prop where
  terminates : ∃ fuel, (boundaryMatches left right fuel text.toList).isSome
  exact : ∀ fuel values, boundaryMatches left right fuel text.toList = some values →
    Enclosed left.toList right.toList text.toList values

/-- Validation accepts all markers. -/
theorem boundaryMatches_exact_iff (left right text : String) :
    (Extractor.classic left right).errors = [] ∧
      (Extractor.chain { left := some left, right := some right }).errors = [] ∧
      (BoundaryExact left right text ↔ ¬ (left = "" ∧ right = "")) := by
  refine ⟨rfl, rfl, ?_, fun h => ?_⟩
  · rintro ⟨⟨fuel, hfuel⟩, -⟩ ⟨rfl, rfl⟩
    rw [boundaryMatches_empty] at hfuel
    cases hfuel
  · exact ⟨⟨_, boundaryMatches_isSome h (Nat.lt_succ_self _)⟩,
      fun fuel values => enclosed_of_boundaryMatches⟩

/-- A chain with two empty markers is accepted and never comes to an end. -/
theorem empty_boundaries_endless :
    (Extractor.chain { left := some "", right := some "" }).errors = [] ∧
      (Extractor.chain { left := some "", right := some "" }).boundaries = some ("", "") ∧
      ¬ BoundaryExact "" "" "a" := by
  refine ⟨by decide, rfl, ?_⟩
  rintro ⟨⟨fuel, hfuel⟩, -⟩
  rw [boundaryMatches_empty] at hfuel
  cases hfuel

/-! ## Percent coding -/

/-- A byte is written as itself or as a triplet. -/
def percentByte (b : ℕ) : List Char :=
  if isUnreserved b then [Char.ofNat b] else ['%', hexDigit (b / 16), hexDigit (b % 16)]

def urlEncode (s : String) : String := String.ofList ((utf8 s).flatMap fun b => percentByte b.toNat)

/-- `to_digit(16)` of the character with the code `b`. -/
def toDigit (b : ℕ) : Option ℕ :=
  if 48 ≤ b ∧ b ≤ 57 then some (b - 48)
  else if 65 ≤ b ∧ b ≤ 70 then some (b - 55)
  else if 97 ≤ b ∧ b ≤ 102 then some (b - 87)
  else none

def decodeBytes : List UInt8 → List UInt8
  | 37 :: h :: l :: bytes =>
    match toDigit h.toNat, toDigit l.toNat with
    | some hi, some lo => UInt8.ofNat (hi * 16 + lo) :: decodeBytes bytes
    | _, _ => 37 :: decodeBytes (h :: l :: bytes)
  | b :: bytes => (if b = 43 then 32 else b) :: decodeBytes bytes
  | [] => []

/-- `String::from_utf8_lossy`: bytes that are the encoding of a text give that text, and `replaced`
is what the others give. -/
def fromUtf8Lossy (replaced : List UInt8 → String) (bytes : List UInt8) : String :=
  (String.fromUTF8? bytes.toByteArray).getD (replaced bytes)

def urlDecode (replaced : List UInt8 → String) (s : String) : String :=
  fromUtf8Lossy replaced (decodeBytes (utf8 s))

def isHexDigit (c : Char) : Bool := (toDigit c.toNat).isSome

/-- Unreserved characters and triplets only. -/
def isPercentCoded : List Char → Bool
  | '%' :: h :: l :: text => isHexDigit h && isHexDigit l && isPercentCoded text
  | c :: text => isUnreserved c.toNat && isPercentCoded text
  | [] => true

theorem utf8_percentByte : ∀ b < 256,
    (isUnreserved b = true ∧ (percentByte b).flatMap String.utf8EncodeChar = [UInt8.ofNat b] ∧
      UInt8.ofNat b ≠ 37 ∧ UInt8.ofNat b ≠ 43) ∨
    (isUnreserved b = false ∧ (percentByte b).flatMap String.utf8EncodeChar =
        [37, UInt8.ofNat (hexDigit (b / 16)).toNat, UInt8.ofNat (hexDigit (b % 16)).toNat]) := by
  decide +kernel

theorem toDigit_hexDigit : ∀ n < 16, toDigit (hexDigit n).toNat = some n ∧
    (UInt8.ofNat (hexDigit n).toNat).toNat = (hexDigit n).toNat := by
  decide +kernel

theorem decodeBytes_percentByte (b : UInt8) (bytes : List UInt8) :
    decodeBytes ((percentByte b.toNat).flatMap String.utf8EncodeChar ++ bytes) =
      b :: decodeBytes bytes := by
  have hb := b.toNat_lt
  rcases utf8_percentByte b.toNat hb with ⟨-, hself, hpercent, hplus⟩ | ⟨-, htriplet⟩
  · rw [UInt8.ofNat_toNat] at hself hpercent hplus
    rw [hself, singleton_append, decodeBytes, if_neg hplus]
    rintro h l rest rfl
    cases hpercent rfl
  · obtain ⟨hhi, hhi'⟩ := toDigit_hexDigit (b.toNat / 16) (by omega)
    obtain ⟨hlo, hlo'⟩ := toDigit_hexDigit (b.toNat % 16) (by omega)
    rw [htriplet, cons_append, cons_append, singleton_append, decodeBytes, hhi', hlo', hhi, hlo]
    simp only [Nat.div_add_mod']
    rw [UInt8.ofNat_toNat]

/-- The two cursors stay aligned: each byte is read from what was written for it. -/
theorem decodeBytes_percentBytes (bytes : List UInt8) :
    decodeBytes ((bytes.flatMap fun b => percentByte b.toNat).flatMap String.utf8EncodeChar) =
      bytes := by
  induction bytes with
  | nil => rfl
  | cons b bytes ih => rw [flatMap_cons, flatMap_append, decodeBytes_percentByte, ih]

theorem fromUtf8Lossy_utf8 (replaced : List UInt8 → String) (s : String) :
    fromUtf8Lossy replaced (utf8 s) = s := by
  have hbytes : (utf8 s).toByteArray = s.toByteArray := String.utf8Encode_toList
  rw [fromUtf8Lossy, hbytes, String.fromUTF8?, dif_pos s.isValidUTF8]
  rfl

theorem urlDecode_urlEncode (replaced : List UInt8 → String) (s : String) :
    urlDecode replaced (urlEncode s) = s := by
  rw [urlDecode, urlEncode, utf8, String.toList_ofList, decodeBytes_percentBytes,
    fromUtf8Lossy_utf8]

theorem isUnreserved_ofNat : ∀ b < 256, isUnreserved b = true →
    Char.ofNat b ≠ '%' ∧ isUnreserved (Char.ofNat b).toNat = true := by
  decide +kernel

theorem isPercentCoded_percentByte (b : UInt8) (text : List Char) :
    isPercentCoded (percentByte b.toNat ++ text) = isPercentCoded text := by
  have hb := b.toNat_lt
  rw [percentByte]
  split_ifs with hself
  · obtain ⟨hpercent, hkept⟩ := isUnreserved_ofNat b.toNat hb hself
    rw [singleton_append, isPercentCoded, hkept, Bool.true_and]
    intro h l rest hc _
    exact hpercent hc
  · obtain ⟨hhi, -⟩ := toDigit_hexDigit (b.toNat / 16) (by omega)
    obtain ⟨hlo, -⟩ := toDigit_hexDigit (b.toNat % 16) (by omega)
    rw [cons_append, cons_append, singleton_append, isPercentCoded, isHexDigit, hhi,
      isHexDigit, hlo, isSome_some, isSome_some, Bool.true_and, Bool.true_and]

/-- Everything that is not unreserved is a triplet, the text is read back, and so no two texts have
one encoding. -/
theorem percent_coding (replaced : List UInt8 → String) :
    (∀ s, isPercentCoded (urlEncode s).toList = true) ∧
      (∀ s, urlDecode replaced (urlEncode s) = s) ∧ Function.Injective urlEncode := by
  refine ⟨fun s => ?_, urlDecode_urlEncode replaced,
    Function.LeftInverse.injective (urlDecode_urlEncode replaced)⟩
  rw [urlEncode, String.toList_ofList]
  induction utf8 s with
  | nil => rfl
  | cons b bytes ih => rw [flatMap_cons, isPercentCoded_percentByte, ih]

end Loadr.Flow
