import Mathlib.Algebra.Ring.Nat
import Mathlib.Data.List.Nodup

/-!
# Trace ids

The id of a request is two outputs of SplitMix64 whose seed is the sum of the id of the virtual
user, a counter of the process and the clock.  The generator loses nothing of its seed
(`traceId_injective`), so two requests have one id exactly if their sums are equal.
-/

namespace Loadr.Protocols

open List

/-! ## SplitMix64 -/

def xorShift (k : ℕ) (z : BitVec 64) : BitVec 64 := z ^^^ (z >>> k)

def splitMix (z : BitVec 64) : BitVec 64 :=
  xorShift 31 (xorShift 27 (xorShift 30 z * 0xBF58476D1CE4E5B9) * 0x94D049BB133111EB)

/-- What each output adds to the seed. -/
def increment : BitVec 64 := 0x9E3779B97F4A7C15

theorem xorShift_injective {k : ℕ} (hk : 0 < k) : Function.Injective (xorShift k) := by
  intro x y h
  have hbit (i : ℕ) : (x.getLsbD i ^^ x.getLsbD (k + i)) = (y.getLsbD i ^^ y.getLsbD (k + i)) := by
    simpa [xorShift] using congrArg (·.getLsbD i) h
  -- from the highest bit down: the bit that is added is higher
  have hbits : ∀ d i, 64 ≤ i + d → x.getLsbD i = y.getLsbD i := by
    intro d
    induction d with
    | zero => exact fun i hi => by rw [BitVec.getLsbD_of_ge x i hi, BitVec.getLsbD_of_ge y i hi]
    | succ d ih =>
      intro i hi
      have := hbit i
      rwa [ih (k + i) (by omega), Bool.xor_left_inj] at this
  exact BitVec.eq_of_getLsbD_eq fun i _ => hbits 64 i (by omega)

theorem mul_injective {c d : BitVec 64} (h : c * d = 1) : Function.Injective (· * c) :=
  Function.LeftInverse.injective (g := (· * d)) fun z => by
    show z * c * d = z
    rw [BitVec.mul_assoc, h]
    exact BitVec.mul_one z

theorem splitMix_injective : Function.Injective splitMix :=
  (xorShift_injective (by decide)).comp <|
    (mul_injective (d := 0x319642B2D24D8EC3) (by decide)).comp <|
    (xorShift_injective (by decide)).comp <|
    (mul_injective (d := 0x96DE1B173F119089) (by decide)).comp (xorShift_injective (by decide))

/-! ## Headers -/

/-- The digits of a number in base 16, filled up with zeros. -/
def hexDigits : ℕ → ℕ → List Char
  | 0, _ => []
  | width + 1, n => hexDigits width (n / 16) ++ [Nat.digitChar (n % 16)]

theorem length_hexDigits (width n : ℕ) : (hexDigits width n).length = width := by
  induction width generalizing n with
  | zero => rfl
  | succ width ih => simp [hexDigits, ih]

theorem hexDigits_inj {width m n : ℕ} (hm : m < 16 ^ width) (hn : n < 16 ^ width)
    (h : hexDigits width m = hexDigits width n) : m = n := by
  induction width generalizing m n with
  | zero => omega
  | succ width ih =>
    have hdigit : ∀ a < 16, ∀ b < 16, Nat.digitChar a = Nat.digitChar b → a = b := by decide
    obtain ⟨hinit, hlast⟩ := append_inj' h rfl
    have hdiv := ih (m := m / 16) (n := n / 16) (by omega) (by omega) hinit
    have hmod := hdigit _ (Nat.mod_lt m (by decide)) _ (Nat.mod_lt n (by decide))
      (singleton_inj.1 hlast)
    omega

def hex (z : BitVec 64) : String := String.ofList (hexDigits 16 z.toNat)

def traceId (seed : BitVec 64) : String :=
  hex (splitMix (seed + increment)) ++ hex (splitMix (seed + increment + increment))

def makeTraceparent (seed counter now : BitVec 64) : String :=
  let seed := seed + counter + now
  "00-" ++ traceId seed ++ "-" ++ hex (splitMix (seed + increment + increment + increment)) ++ "-01"

theorem traceId_injective : Function.Injective traceId := by
  intro s t h
  have hlist := congrArg String.toList h
  simp only [traceId, hex, String.toList_append, String.toList_ofList] at hlist
  obtain ⟨hfirst, -⟩ := append_inj hlist (by rw [length_hexDigits, length_hexDigits])
  have hlt (z : BitVec 64) : z.toNat < 16 ^ 16 := z.isLt
  have hmix := BitVec.eq_of_toNat_eq (hexDigits_inj (hlt _) (hlt _) hfirst)
  exact (BitVec.add_left_inj _).1 (splitMix_injective hmix)

/-! ## The requests of a process -/

structure Call where
  vuId : BitVec 64
  now : BitVec 64

/-- The requests in the order in which they take a number, from the counter on. -/
def traceparents (counter : BitVec 64) : List Call → List String
  | [] => []
  | c :: calls => makeTraceparent c.vuId counter c.now :: traceparents (counter + 1) calls

def idOf (traceparent : String) : String := String.ofList ((traceparent.toList.drop 3).take 32)

theorem idOf_makeTraceparent (seed counter now : BitVec 64) :
    idOf (makeTraceparent seed counter now) = traceId (seed + counter + now) := by
  have hlength : (traceId (seed + counter + now)).toList.length = 32 := by
    simp [traceId, hex, length_hexDigits]
  simp only [idOf, makeTraceparent, String.toList_append, append_assoc]
  rw [drop_left' (by decide : "00-".toList.length = 3), take_left' hlength, String.ofList_toList]

/-- The requests of a process have different ids exactly if the sums of user, number and clock are
different modulo 2^64. -/
theorem traceIds_nodup_iff (calls : List Call) :
    ((traceparents 0 calls).map idOf).Nodup ↔
      calls.zipIdx.Pairwise fun c d =>
        c.1.vuId + .ofNat 64 c.2 + c.1.now ≠ d.1.vuId + .ofNat 64 d.2 + d.1.now := by
  have hids (n : ℕ) : (traceparents (.ofNat 64 n) calls).map idOf =
      ((calls.zipIdx n).map fun c => c.1.vuId + .ofNat 64 c.2 + c.1.now).map traceId := by
    induction calls generalizing n with
    | nil => rfl
    | cons c calls ih =>
      rw [traceparents, map_cons, idOf_makeTraceparent, zipIdx_cons]
      have := ih (n + 1)
      rw [BitVec.ofNat_add] at this
      exact congrArg _ this
  rw [show (0 : BitVec 64) = .ofNat 64 0 from rfl, hids, nodup_map_iff traceId_injective,
    List.Nodup, pairwise_map]

/-- Two users whose clocks are one nanosecond apart share a trace. -/
theorem shared_trace : ¬((traceparents 0 [⟨3, 0⟩, ⟨1, 1⟩]).map idOf).Nodup := by
  decide +kernel

end Loadr.Protocols
