import Loadr.Lib.Reader
import Loadr.Request.Extract

/-!
# Replies of a Redis server

`read_reply` reads one reply from the bytes of the connection.  The reader gives back the value that
was encoded and leaves exactly the bytes after it, for values of any nesting (`readReply_encoded`).
-/

namespace Loadr.Redis

open List Loadr.Flow Reader

inductive RespValue
  | simple (s : String)
  | error (e : String)
  | integer (n : ℤ)
  | bulk (b : List UInt8)
  | nil
  | array (items : List RespValue)

/-! ## Integers in decimal -/

/-- `str::parse` of an integer type. -/
def parseInt (min max : ℤ) : List Char → Option ℤ
  | '+' :: digits => go 1 digits
  | '-' :: digits => if min < 0 then go (-1) digits else none
  | digits => go 1 digits
where
  go (sign : ℤ) (digits : List Char) : Option ℤ :=
    let value := sign * Nat.ofDigitChars 10 digits 0
    if digits ≠ [] ∧ digits.all Char.isDigit ∧ min ≤ value ∧ value ≤ max then some value else none

def i64 : List Char → Option ℤ := parseInt (-2 ^ 63) (2 ^ 63 - 1)

theorem isDigit_of_mem {n : ℕ} {c : Char} (h : c ∈ Nat.toDigits 10 n) : c.isDigit :=
  Nat.isDigit_of_mem_toDigits (by decide) (by decide) h

theorem parseInt_go {sign min max : ℤ} {n : ℕ} (hmin : min ≤ sign * n) (hmax : sign * n ≤ max) :
    parseInt.go min max sign (Nat.toDigits 10 n) = some (sign * n) := by
  rw [parseInt.go, Nat.ofDigitChars_ten_toDigits, if_pos]
  exact ⟨Nat.toDigits_ne_nil, all_eq_true.2 fun c => isDigit_of_mem, hmin, hmax⟩

theorem toList_toString (n : ℤ) :
    (toString n).toList = (if n < 0 then ['-'] else []) ++ Nat.toDigits 10 n.natAbs := by
  cases n with
  | ofNat m => exact (congrArg String.toList Nat.repr_eq_ofList_toDigits).trans String.toList_ofList
  | negSucc m =>
    change ("-" ++ Nat.repr (m + 1)).toList = _
    rw [String.toList_append, Nat.repr_eq_ofList_toDigits, if_pos (Int.negSucc_lt_zero m)]
    exact congrArg ('-' :: ·) String.toList_ofList

theorem i64_toString {n : ℤ} (h : -2 ^ 63 ≤ n ∧ n < 2 ^ 63) :
    i64 (toString n).toList = some n := by
  rw [toList_toString]
  by_cases hn : n < 0
  · have hneg : i64 ('-' :: Nat.toDigits 10 n.natAbs) = some (-1 * (n.natAbs : ℤ)) :=
      parseInt_go (by omega) (by omega)
    rw [if_pos hn]
    exact hneg.trans (congrArg some (by omega))
  · have hsign {c : Char} {l : List Char} (hl : Nat.toDigits 10 n.natAbs = c :: l) : c.isDigit :=
      isDigit_of_mem (hl ▸ mem_cons_self)
    rw [if_neg hn, nil_append, i64, parseInt, parseInt_go (by omega) (by omega)]
    · exact congrArg some (by omega)
    · exact fun l hl => by simpa using hsign hl
    · exact fun l hl => by simpa using hsign hl

/-! ## The reader -/

/-- What is used of the libraries: the replacement of bytes that are no text, and the errors. -/
structure Lib where
  replaced : List UInt8 → String
  eof : String
  parseError : String → String

variable (lib : Lib)

def Lib.lossy : List UInt8 → String := fromUtf8Lossy lib.replaced

abbrev Reading := StateT (List UInt8) (Except String)

def readU8 : Reading UInt8
  | [] => .error ("read failed: " ++ lib.eof)
  | byte :: rest => .ok (byte, rest)

def readLine : Reading (List UInt8)
  | [] | [13] => .error ("read failed: " ++ lib.eof)
  | 13 :: 10 :: rest => .ok ([], rest)
  | 13 :: next :: rest => do
    let (line, rest) ← readLine rest
    return (13 :: next :: line, rest)
  | byte :: rest => do
    let (line, rest) ← readLine rest
    return (byte :: line, rest)

def readNumber (what : String) : Reading ℤ := do
  let text := trim (lib.lossy (← readLine lib)).toList
  match i64 text with
  | some n => return n
  | none => throw ("invalid " ++ what ++ ": " ++ lib.parseError (String.ofList text))

def readItems (read : Reading RespValue) : ℕ → Reading (List RespValue)
  | 0 => return []
  | n + 1 => do
    let item ← read
    return item :: (← readItems read n)

/-- The reader with a bound on the nesting. -/
def readNested : ℕ → Reading RespValue
  | 0 => throw ("read failed: " ++ lib.eof)
  | fuel + 1 => do
    match ← readU8 lib with
    | 43 => return .simple (lib.lossy (← readLine lib))
    | 45 => return .error (lib.lossy (← readLine lib))
    | 58 => return .integer (← readNumber lib "integer reply")
    | 36 =>
      let len ← readNumber lib "bulk length"
      if len < 0 then return .nil
      let buf ← readExact ("read failed: " ++ lib.eof) len.toNat
      let _ ← readExact ("read failed: " ++ lib.eof) 2
      return .bulk buf
    | 42 =>
      let len ← readNumber lib "array length"
      if len < 0 then return .nil
      return .array (← readItems (readNested fuel) len.toNat)
    | other =>
      throw ("unexpected RESP prefix byte: 0x" ++ String.ofList (Nat.toDigits 16 other.toNat))

/-- A value is not deeper than it is long. -/
def readReply : Reading RespValue := fun input => readNested lib input.length input

/-! ## Exact reading -/

def line (s : List UInt8) : List UInt8 := s ++ [13, 10]

mutual

/-- The encodings of a value; both nulls are read as `nil`. -/
inductive Encoded : RespValue → List UInt8 → Prop
  | simple {s : String} : '\r' ∉ s.toList → '\n' ∉ s.toList →
    Encoded (.simple s) (43 :: line (utf8 s))
  | error {s : String} : '\r' ∉ s.toList → '\n' ∉ s.toList →
    Encoded (.error s) (45 :: line (utf8 s))
  | integer {n : ℤ} : -2 ^ 63 ≤ n ∧ n < 2 ^ 63 →
    Encoded (.integer n) (58 :: line (utf8 (toString n)))
  | bulk {b : List UInt8} : b.length < 2 ^ 63 →
    Encoded (.bulk b) (36 :: line (utf8 (toString (b.length : ℤ))) ++ line b)
  | bulkNull : Encoded .nil (36 :: line (utf8 (toString (-1 : ℤ))))
  | arrayNull : Encoded .nil (42 :: line (utf8 (toString (-1 : ℤ))))
  | array {items : List RespValue} {b : List UInt8} : items.length < 2 ^ 63 → EncodedAll items b →
    Encoded (.array items) (42 :: line (utf8 (toString (items.length : ℤ))) ++ b)

inductive EncodedAll : List RespValue → List UInt8 → Prop
  | nil : EncodedAll [] []
  | cons {v : RespValue} {vs : List RespValue} {b bs : List UInt8} : Encoded v b →
    EncodedAll vs bs → EncodedAll (v :: vs) (b ++ bs)

end

theorem cr_of_mem_utf8EncodeChar {c : Char} (h : 13 ∈ String.utf8EncodeChar c) : c = '\r' := by
  simp only [String.utf8EncodeChar] at h
  split at h
  · simp [← UInt8.toNat_inj] at h
    have hval : c.val.toNat = 13 := by
      have : c.val.toNat = c.toNat := rfl
      omega
    exact Char.ext (UInt32.toNat.inj hval)
  -- the bytes of longer encodings have the high bit
  · split at h
    · simp [← UInt8.toNat_inj] at h
      omega
    · split at h <;> simp [← UInt8.toNat_inj] at h <;> omega

theorem cr_not_mem_utf8 {s : String} (h : '\r' ∉ s.toList) : 13 ∉ utf8 s := by
  intro hmem
  obtain ⟨c, hc, hbyte⟩ := mem_flatMap.1 hmem
  exact h (cr_of_mem_utf8EncodeChar hbyte ▸ hc)

section Reads

variable {lib}

theorem reads_readU8 (b : UInt8) : Reads (readU8 lib) [b] b := fun _ => rfl

theorem reads_readLine {l : List UInt8} (h : 13 ∉ l) : Reads (readLine lib) (line l) l := by
  intro rest
  induction l with
  | nil => rfl
  | cons b l ih =>
    obtain ⟨hb, hl⟩ := mem_cons.not.1 h |> not_or.1
    have hread : readLine lib (line (b :: l) ++ rest) = do
        let (line, rest) ← readLine lib (line l ++ rest)
        return (b :: line, rest) := by
      rw [line, cons_append, cons_append, readLine.eq_def]
      split <;> simp_all [line]
    rw [hread, ih hl]
    rfl

theorem reads_readNumber (what : String) {n : ℤ} (h : -2 ^ 63 ≤ n ∧ n < 2 ^ 63) :
    Reads (readNumber lib what) (line (utf8 (toString n))) n := by
  have hchar (c : Char) (hc : c ∈ (toString n).toList) : c = '-' ∨ c.isDigit := by
    rw [toList_toString] at hc
    rcases mem_append.1 hc with hc | hc
    · exact .inl (by split at hc <;> simp_all)
    · exact .inr (isDigit_of_mem hc)
  refine (reads_readLine (cr_not_mem_utf8 fun hc => ?_)).last ?_
  · simpa using hchar _ hc
  · simp only [Lib.lossy, fromUtf8Lossy_utf8]
    rw [trim_eq_self fun c hc => ?_, i64_toString h]
    · exact reads_pure n
    · rcases hchar c hc with rfl | hdigit
      · decide
      · simp only [Char.isDigit, Bool.and_eq_true, decide_eq_true_eq,
          UInt32.le_iff_toNat_le] at hdigit
        have : c.val.toNat = c.toNat := rfl
        simp [isWhiteSpace]
        grind

end Reads

mutual

theorem reads_readNested : ∀ {v : RespValue} {b : List UInt8}, Encoded v b → ∀ {fuel : ℕ},
    b.length ≤ fuel → Reads (readNested lib fuel) b v
  | _, _, .simple hr hn, fuel + 1, h => by
    refine (reads_readU8 43).bind ((reads_readLine (cr_not_mem_utf8 hr)).last ?_)
    rw [Lib.lossy, fromUtf8Lossy_utf8]
    exact reads_pure _
  | _, _, .error hr hn, fuel + 1, h => by
    refine (reads_readU8 45).bind ((reads_readLine (cr_not_mem_utf8 hr)).last ?_)
    rw [Lib.lossy, fromUtf8Lossy_utf8]
    exact reads_pure _
  | _, _, .integer hn, fuel + 1, h =>
    (reads_readU8 58).bind ((reads_readNumber _ hn).last (reads_pure _))
  | _, _, .bulk hb, fuel + 1, h => by
    refine (reads_readU8 36).bind ((reads_readNumber _ (by omega)).bind ?_)
    rw [if_neg (by omega)]
    exact ((reads_readExact _ _).bind ((reads_readExact _ [13, 10]).last (reads_pure _)))
  | _, _, .bulkNull, fuel + 1, h =>
    (reads_readU8 36).bind ((reads_readNumber _ (by decide)).last (reads_pure _))
  | _, _, .arrayNull, fuel + 1, h =>
    (reads_readU8 42).bind ((reads_readNumber _ (by decide)).last (reads_pure _))
  | _, _, .array hlen hitems, fuel + 1, h => by
    refine (reads_readU8 42).bind ((reads_readNumber _ (by omega)).bind ?_)
    rw [if_neg (by omega)]
    exact (reads_readItems hitems (by simp at h; omega)).last (reads_pure _)

theorem reads_readItems : ∀ {vs : List RespValue} {b : List UInt8}, EncodedAll vs b → ∀ {fuel : ℕ},
    b.length ≤ fuel → Reads (readItems (readNested lib fuel) vs.length) b vs
  | _, _, .nil, fuel, h => reads_pure _
  | _, _, .cons hv hvs, fuel, h => by
    rw [length_append] at h
    exact (reads_readNested hv (by omega)).bind
      ((reads_readItems hvs (by omega)).last (reads_pure _))

end

theorem readReply_encoded {v : RespValue} {b : List UInt8} (h : Encoded v b) (rest : List UInt8) :
    readReply lib (b ++ rest) = .ok (v, rest) :=
  reads_readNested lib h (by simp) rest

theorem readReply_encoded_nested : ∃ b, Encoded (.array [.integer (-7), .array [.bulk [13, 10]]]) b ∧
    readReply ⟨fun _ => "", "", id⟩ (b ++ [43]) =
      .ok (.array [.integer (-7), .array [.bulk [13, 10]]], [43]) := by
  have hbulk : EncodedAll [.bulk [13, 10]] _ := .cons (.bulk (by decide)) .nil
  have hcode : Encoded (.array [.integer (-7), .array [.bulk [13, 10]]]) _ :=
    .array (by decide) (.cons (.integer (by decide)) (.cons (.array (by decide) hbulk) .nil))
  exact ⟨_, hcode, readReply_encoded _ hcode [43]⟩

end Loadr.Redis
