import Loadr.Flow.Url
import Mathlib.Data.Nat.Digits.Defs

/-!
# Bodies in base64

The plugins carry bodies as base64 text and have their own codec: the decoder drops line breaks and
reads four characters at a time, where `=` counts as zero.  The text is the padded encoding in the
standard alphabet, and it decodes to the body however it is broken into lines (`base64_roundtrip`).
-/

namespace Loadr.Base64

open List
open Loadr.Flow (utf8)

/-! ## The codec -/

def alpha : List Char := "ABCDEFGHIJKLMNOPQRSTUVWXYZabcdefghijklmnopqrstuvwxyz0123456789+/".toList

def letter (n : ℕ) : Char := alpha.getD (n &&& 0x3f) '='

/-- The bytes of a chunk as one number; missing ones are zero. -/
def group (chunk : List UInt8) : ℕ :=
  (chunk.getD 0 0).toNat <<< 16 ||| (chunk.getD 1 0).toNat <<< 8 ||| (chunk.getD 2 0).toNat

def encodeChunk (chunk : List UInt8) : List Char :=
  let n := group chunk
  [letter (n >>> 18), letter (n >>> 12), if 1 < chunk.length then letter (n >>> 6) else '=',
    if 2 < chunk.length then letter n else '=']

def encodeChunks : List UInt8 → List Char
  | [] => []
  | [a] => encodeChunk [a]
  | [a, b] => encodeChunk [a, b]
  | a :: b :: c :: rest => encodeChunk [a, b, c] ++ encodeChunks rest

def base64Encode (input : List UInt8) : String := String.ofList (encodeChunks input)

def val (c : UInt8) : Option ℕ :=
  if 65 ≤ c ∧ c ≤ 90 then some (c.toNat - 65)
  else if 97 ≤ c ∧ c ≤ 122 then some (c.toNat - 97 + 26)
  else if 48 ≤ c ∧ c ≤ 57 then some (c.toNat - 48 + 52)
  else if c = 43 then some 62
  else if c = 47 then some 63
  else none

def digit (b : UInt8) : Except String ℕ :=
  if b = 61 then .ok 0
  else match val b with
    | some v => .ok v
    | none => .error "invalid base64 in request body"

/-- The bytes of a group that has `pad` padding characters. -/
def ungroup (pad n : ℕ) : List UInt8 :=
  .ofNat (n >>> 16) :: ((if pad < 2 then [.ofNat (n >>> 8)] else []) ++
    if pad < 1 then [.ofNat n] else [])

def decodeChunk (chunk : List UInt8) : Except String (List UInt8) := do
  let buf ← chunk.mapM digit
  return ungroup (chunk.count 61)
    (buf.getD 0 0 <<< 18 ||| buf.getD 1 0 <<< 12 ||| buf.getD 2 0 <<< 6 ||| buf.getD 3 0)

def decodeChunks : List UInt8 → Except String (List UInt8)
  | [] => .ok []
  | a :: b :: c :: d :: rest => do return (← decodeChunk [a, b, c, d]) ++ (← decodeChunks rest)
  | chunk => decodeChunk chunk

def base64Decode (input : String) : Except String (List UInt8) :=
  decodeChunks ((utf8 input).filter fun b => b ≠ 10 ∧ b ≠ 13)

/-! ## Groups of bits -/

theorem or_eq {b x y : ℕ} (hy : y < 2 ^ b) : x <<< b ||| y = x * 2 ^ b + y := by
  rw [← Nat.shiftLeft_add_eq_or_of_lt hy, Nat.shiftLeft_eq]

theorem or_shift {b k x y : ℕ} (hy : y < 2 ^ b) :
    x <<< (b + k) ||| y <<< k = (x * 2 ^ b + y) <<< k := by
  rw [← or_eq hy, Nat.shiftLeft_or_distrib, ← Nat.shiftLeft_add]

theorem and_eq (n : ℕ) : n &&& 63 = n % 64 := Nat.and_two_pow_sub_one_eq_mod n 6

section Chunk

variable {chunk : List UInt8}

theorem group_eq (chunk : List UInt8) : group chunk =
    (chunk.getD 0 0).toNat * 65536 + (chunk.getD 1 0).toNat * 256 + (chunk.getD 2 0).toNat := by
  rw [group, or_shift (k := 8) (b := 8) (UInt8.toNat_lt _), or_eq (UInt8.toNat_lt _)]
  omega

theorem byte_lt (chunk : List UInt8) (i : ℕ) : (chunk.getD i 0).toNat < 256 := UInt8.toNat_lt _

/-! ## The encoding -/

/-- `text` is the padded encoding of `b`: its letters stand for the digits of the number whose
binary digits are those of the bytes and then fewer than six zeros. -/
structure Padded (b : List UInt8) (text : List Char) (digits : List ℕ) (zeros pads : ℕ) : Prop where
  text_eq : text = digits.map letter ++ replicate pads '='
  digits_lt : ∀ d ∈ digits, d < 64
  value_eq : Nat.ofDigits 64 digits.reverse =
    Nat.ofDigits 256 (b.map UInt8.toNat).reverse * 2 ^ zeros
  length_eq : 6 * digits.length = 8 * b.length + zeros
  zeros_lt : zeros < 6

theorem Padded.append {b l : List UInt8} {text rest : List Char} {d ds : List ℕ} {zeros pads : ℕ}
    (h : Padded b text d 0 0) (hl : Padded l rest ds zeros pads) :
    Padded (b ++ l) (text ++ rest) (d ++ ds) zeros pads where
  text_eq := by simp [h.text_eq, hl.text_eq]
  digits_lt := forall_mem_append.2 ⟨h.digits_lt, hl.digits_lt⟩
  value_eq := by
    have hpow : 64 ^ ds.length = 256 ^ l.length * 2 ^ zeros := by
      rw [show 64 = 2 ^ 6 from rfl, show 256 = 2 ^ 8 from rfl, ← pow_mul, ← pow_mul, ← pow_add,
        hl.length_eq]
    simp only [map_append, reverse_append, Nat.ofDigits_append, length_reverse, length_map,
      h.value_eq, hl.value_eq, hpow]
    ring
  length_eq := by
    have := h.length_eq
    have := hl.length_eq
    simp only [length_append]
    omega
  zeros_lt := hl.zeros_lt

def sextets (n : ℕ) : List ℕ := [n / 2 ^ 18 % 64, n / 2 ^ 12 % 64, n / 2 ^ 6 % 64, n % 64]

theorem chunk_cases (h₀ : chunk ≠ []) (h₃ : chunk.length ≤ 3) :
    (∃ a, chunk = [a]) ∨ (∃ a b, chunk = [a, b]) ∨ ∃ a b c, chunk = [a, b, c] := by
  match chunk with
  | [a] => exact .inl ⟨a, rfl⟩
  | [a, b] => exact .inr (.inl ⟨a, b, rfl⟩)
  | [a, b, c] => exact .inr (.inr ⟨a, b, c, rfl⟩)

theorem padded_chunk (h₀ : chunk ≠ []) (h₃ : chunk.length ≤ 3) :
    Padded chunk (encodeChunk chunk) ((sextets (group chunk)).take (chunk.length + 1))
      (6 - 2 * chunk.length) (3 - chunk.length) := by
  have hlt := byte_lt chunk
  obtain ⟨a, rfl⟩ | ⟨a, b, rfl⟩ | ⟨a, b, c, rfl⟩ := chunk_cases h₀ h₃
  all_goals
    have := hlt 0
    have := hlt 1
    have := hlt 2
    refine ⟨?_, ?_, ?_, rfl, by simp⟩
    · simp [sextets, encodeChunk, letter, and_eq, Nat.shiftRight_eq_div_pow]
    · simp [sextets]
      omega
    · simp_all [sextets, group_eq, Nat.ofDigits_cons]
      omega

/-! ## The decoder -/

theorem letter_spec (n : ℕ) :
    (letter n).toUInt8 ≠ 61 ∧ digit (letter n).toUInt8 = .ok (n % 64) := by
  have h : ∀ d : Fin 64, (alpha.getD d '=').toUInt8 ≠ 61 ∧
    digit (alpha.getD d '=').toUInt8 = .ok d.val := by decide +kernel
  rw [letter, and_eq]
  exact h ⟨n % 64, Nat.mod_lt _ (by decide)⟩

theorem regroup {n : ℕ} (hn : n < 2 ^ 24) : (n / 2 ^ 18 % 64) <<< 18 |||
    (n / 2 ^ 12 % 64) <<< 12 ||| (n / 2 ^ 6 % 64) <<< 6 ||| n % 64 = n := by
  have hlt (m : ℕ) : m % 64 < 2 ^ 6 := Nat.mod_lt _ (by decide)
  rw [or_shift (k := 12) (b := 6) (hlt _), or_shift (k := 6) (b := 6) (hlt _), or_eq (hlt _)]
  omega

theorem ungroup_group (pad : ℕ) (chunk : List UInt8) : ungroup pad (group chunk) =
    chunk.getD 0 0 :: ((if pad < 2 then [chunk.getD 1 0] else []) ++
      if pad < 1 then [chunk.getD 2 0] else []) := by
  have hbyte {n : ℕ} {b : UInt8} (h : n % 256 = b.toNat) : UInt8.ofNat n = b :=
    UInt8.toNat.inj (by simpa using h)
  have hlt := byte_lt chunk
  have h₀ := hlt 0
  have h₁ := hlt 1
  have h₂ := hlt 2
  rw [ungroup, group_eq, Nat.shiftRight_eq_div_pow, Nat.shiftRight_eq_div_pow,
    hbyte (b := chunk.getD 0 0) (by omega), hbyte (b := chunk.getD 1 0) (by omega),
    hbyte (b := chunk.getD 2 0) (by omega)]

theorem decodeChunk_encodeChunk (h₀ : chunk ≠ []) (h₃ : chunk.length ≤ 3) :
    decodeChunk ((encodeChunk chunk).map Char.toUInt8) = .ok chunk := by
  have hgroup := group_eq chunk
  have hlt := byte_lt chunk
  have hn : group chunk < 2 ^ 24 := by have := hlt 0; have := hlt 1; have := hlt 2; omega
  have hpad : '='.toUInt8 = 61 := rfl
  have hzero : digit '='.toUInt8 = .ok 0 := rfl
  -- the padding characters read as the zero bits that fill the group
  have hbuf : ((encodeChunk chunk).map Char.toUInt8).mapM digit = .ok (sextets (group chunk)) := by
    obtain ⟨a, rfl⟩ | ⟨a, b, rfl⟩ | ⟨a, b, c, rfl⟩ := chunk_cases h₀ h₃
    all_goals
      simp [encodeChunk, letter_spec, Nat.shiftRight_eq_div_pow, hzero, bind, pure, Except.bind,
        Except.pure, sextets]
    · simp at hgroup
      omega
    · simp at hgroup
      omega
  have hcount : ((encodeChunk chunk).map Char.toUInt8).count 61 = 3 - chunk.length := by
    obtain ⟨a, rfl⟩ | ⟨a, b, rfl⟩ | ⟨a, b, c, rfl⟩ := chunk_cases h₀ h₃
    all_goals simp [encodeChunk, letter_spec, hpad]
  rw [decodeChunk, hbuf, hcount]
  refine (congrArg (fun n => Except.ok (ungroup _ n)) (regroup hn)).trans ?_
  rw [ungroup_group]
  obtain ⟨a, rfl⟩ | ⟨a, b, rfl⟩ | ⟨a, b, c, rfl⟩ := chunk_cases h₀ h₃ <;> rfl

end Chunk

/-! ## Whole bodies -/

theorem exists_padded (b : List UInt8) :
    ∃ digits zeros pads, Padded b (encodeChunks b) digits zeros pads := by
  fun_induction encodeChunks b with
  | case1 => exact ⟨[], 0, 0, rfl, by simp, rfl, rfl, by decide⟩
  | case2 | case3 => exact ⟨_, _, _, padded_chunk (by simp) (by simp)⟩
  | case4 a b c rest ih =>
    obtain ⟨_, _, _, hrest⟩ := ih
    have hchunk : Padded [a, b, c] (encodeChunk [a, b, c]) _ 0 0 :=
      padded_chunk (by simp) le_rfl
    exact ⟨_, _, _, hchunk.append hrest⟩

theorem length_encodeChunks (b : List UInt8) :
    (encodeChunks b).length = 4 * ((b.length + 2) / 3) := by
  fun_induction encodeChunks b with
  | case1 | case2 | case3 => simp [encodeChunk]
  | case4 a b c rest ih =>
    rw [length_append, ih]
    simp only [encodeChunk, length_cons, length_nil]
    omega

theorem decodeChunks_append {chunk : List UInt8} (h₀ : chunk ≠ []) (h₃ : chunk.length ≤ 3)
    (text : List Char) : decodeChunks ((encodeChunk chunk ++ text).map Char.toUInt8) =
      (chunk ++ ·) <$> decodeChunks (text.map Char.toUInt8) := by
  have hsplit : decodeChunks ((encodeChunk chunk ++ text).map Char.toUInt8) = do
    return (← decodeChunk ((encodeChunk chunk).map Char.toUInt8)) ++
      (← decodeChunks (text.map Char.toUInt8)) := rfl
  rw [hsplit, decodeChunk_encodeChunk h₀ h₃]
  rfl

theorem decodeChunks_encodeChunks (b : List UInt8) :
    decodeChunks ((encodeChunks b).map Char.toUInt8) = .ok b := by
  fun_induction encodeChunks b with
  | case1 => rfl
  | case2 | case3 => exact decodeChunks_append (by simp) (by simp) []
  | case4 a b c rest ih =>
    rw [decodeChunks_append (by simp) le_rfl, ih]
    rfl

/-! ## Line breaks -/

def isBreak (c : Char) : Bool := c = '\n' || c = '\r'

/-- Of a character of the text, the decoder sees its byte unless it is a line break. -/
def Visible (c : Char) : Prop :=
  (String.utf8EncodeChar c).filter (fun b => b ≠ 10 ∧ b ≠ 13) =
    if isBreak c then [] else [c.toUInt8]

instance (c : Char) : Decidable (Visible c) := inferInstanceAs (Decidable (_ = _))

theorem visible_letter (n : ℕ) : Visible (letter n) := by
  have h : ∀ d : Fin 64, Visible (alpha.getD d '=') := by decide +kernel
  rw [letter, and_eq]
  exact h ⟨n % 64, Nat.mod_lt _ (by decide)⟩

theorem Padded.visible {b : List UInt8} {text : List Char} {digits : List ℕ} {zeros pads : ℕ}
    (h : Padded b text digits zeros pads) {c : Char} (hc : c ∈ text) : Visible c := by
  rw [h.text_eq] at hc
  rcases mem_append.1 hc with hc | hc
  · obtain ⟨n, -, rfl⟩ := mem_map.1 hc
    exact visible_letter n
  · rw [eq_of_mem_replicate hc]
    decide

theorem filter_utf8 {text : List Char} (h : ∀ c ∈ text, Visible c) :
    (text.flatMap String.utf8EncodeChar).filter (fun b => b ≠ 10 ∧ b ≠ 13) =
      (text.filter (!isBreak ·)).map Char.toUInt8 := by
  induction text with
  | nil => rfl
  | cons c text ih =>
    obtain ⟨hc, htext⟩ := forall_mem_cons.1 h
    rw [flatMap_cons, filter_append, ih htext, hc, filter_cons]
    cases isBreak c <;> rfl

theorem base64_roundtrip (b : List UInt8) :
    (∃ digits zeros pads, Padded b (base64Encode b).toList digits zeros pads) ∧
      (base64Encode b).length = 4 * ((b.length + 2) / 3) ∧
      ∀ text : String, text.toList.filter (!isBreak ·) = (base64Encode b).toList →
        base64Decode text = .ok b := by
  simp only [base64Encode, String.toList_ofList, String.length_ofList]
  obtain ⟨digits, zeros, pads, hpadded⟩ := exists_padded b
  refine ⟨⟨digits, zeros, pads, hpadded⟩, length_encodeChunks b, fun text htext => ?_⟩
  have hvisible (c : Char) (hc : c ∈ text.toList) : Visible c := by
    by_cases hbreak : isBreak c
    · rcases (by simpa [isBreak] using hbreak) with rfl | rfl <;> decide
    · exact hpadded.visible (htext ▸ mem_filter.2 ⟨hc, by simpa using hbreak⟩)
  rw [base64Decode, utf8, filter_utf8 hvisible, htext, decodeChunks_encodeChunks]

theorem base64_roundtrip_man : base64Decode "TW\r\nFuIQ=\n=" = .ok [77, 97, 110, 33] :=
  (base64_roundtrip [77, 97, 110, 33]).2.2 _ (by decide +kernel)

end Loadr.Base64
