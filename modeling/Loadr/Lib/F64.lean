import Mathlib.Algebra.BigOperators.Group.Multiset.Basic
import Mathlib.Data.Rat.Floor

/-!
# Floating-point numbers with exact finite arithmetic

`F64` has the special values of the binary format, and every rational as a finite value.  Operations
on finite values are exact: rounding, signed zeros and overflow are left out.

So the numbers are a commutative monoid under addition, and totals and extremes of multisets of
numbers make sense (`Multiset.sum`, `lowest`, `highest`).
-/

/-! ## Folding an idempotent operation -/

section Fold

variable {α : Type*} {op : α → α → α} [Std.Commutative op] [Std.Associative op]
  [Std.IdempotentOp op] {b : α}

theorem fold_add_of_idempotent (s t : Multiset α) :
    (s + t).fold op b = op (s.fold op b) (t.fold op b) := by
  have hb : op b b = b := Std.IdempotentOp.idempotent b
  have h := Multiset.fold_add op b b s t
  rwa [hb] at h

theorem fold_absorb {s t : Multiset α} (h : s ≤ t) :
    op (s.fold op b) (t.fold op b) = t.fold op b := by
  obtain ⟨u, rfl⟩ := Multiset.le_iff_exists_add.1 h
  have hassoc : op (op (s.fold op b) (s.fold op b)) (u.fold op b) =
      op (s.fold op b) (op (s.fold op b) (u.fold op b)) := Std.Associative.assoc _ _ _
  have hidem : op (s.fold op b) (s.fold op b) = s.fold op b := Std.IdempotentOp.idempotent _
  rw [fold_add_of_idempotent, ← hassoc, hidem]

end Fold

/-- Numbers with the special values of the binary floating-point formats. -/
inductive F64
  | nan
  | posInf
  | negInf
  | fin (q : ℚ)
deriving DecidableEq

namespace F64

instance : Zero F64 := ⟨fin 0⟩

instance : Inhabited F64 := ⟨0⟩

def isFinite : F64 → Bool
  | fin _ => true
  | _ => false

protected def add : F64 → F64 → F64
  | nan, _ | _, nan => nan
  | posInf, negInf | negInf, posInf => nan
  | posInf, _ | _, posInf => posInf
  | negInf, _ | _, negInf => negInf
  | fin a, fin b => fin (a + b)

protected def neg : F64 → F64
  | nan => nan
  | posInf => negInf
  | negInf => posInf
  | fin a => fin (-a)

instance : Add F64 := ⟨F64.add⟩

instance : Neg F64 := ⟨F64.neg⟩

instance : Sub F64 := ⟨fun x y => x + -y⟩

/-- An infinity with the sign of a number, `nan` for zero. -/
def signedInf (q : ℚ) : F64 :=
  if 0 < q then posInf else if q < 0 then negInf else nan

protected def mul : F64 → F64 → F64
  | nan, _ | _, nan => nan
  | posInf, posInf | negInf, negInf => posInf
  | posInf, negInf | negInf, posInf => negInf
  | posInf, fin q | fin q, posInf => signedInf q
  | negInf, fin q | fin q, negInf => signedInf (-q)
  | fin a, fin b => fin (a * b)

protected def div : F64 → F64 → F64
  | nan, _ | _, nan => nan
  | fin _, posInf | fin _, negInf => fin 0
  | posInf, fin b => if b < 0 then negInf else posInf
  | negInf, fin b => if b < 0 then posInf else negInf
  | fin a, fin b => if b = 0 then signedInf a else fin (a / b)
  | _, _ => nan

instance : Mul F64 := ⟨F64.mul⟩

instance : Div F64 := ⟨F64.div⟩

def abs : F64 → F64
  | nan => nan
  | posInf | negInf => posInf
  | fin a => fin |a|

/-- Comparisons with `nan` are false. -/
def lt : F64 → F64 → Bool
  | nan, _ | _, nan => false
  | negInf, negInf | posInf, posInf => false
  | negInf, _ | _, posInf => true
  | _, negInf | posInf, _ => false
  | fin a, fin b => a < b

def eq (x y : F64) : Bool := x != nan && x == y

def le (x y : F64) : Bool := x.lt y || x.eq y

protected def min : F64 → F64 → F64
  | nan, x | x, nan => x
  | posInf, x | x, posInf => x
  | negInf, _ | _, negInf => negInf
  | fin a, fin b => fin (min a b)

protected def max : F64 → F64 → F64
  | nan, x | x, nan => x
  | negInf, x | x, negInf => x
  | posInf, _ | _, posInf => posInf
  | fin a, fin b => fin (max a b)

instance : Min F64 := ⟨F64.min⟩

instance : Max F64 := ⟨F64.max⟩

def round : F64 → F64
  | fin q => if 0 ≤ q then fin ⌊q + 1 / 2⌋ else fin ⌈q - 1 / 2⌉
  | x => x

def trunc : F64 → F64
  | fin q => if 0 ≤ q then fin ⌊q⌋ else fin ⌈q⌉
  | x => x

/-- The fractional part; `nan` for the infinities. -/
def fract (x : F64) : F64 := x - x.trunc

/-- The cast to an unsigned integer of 64 bits truncates and saturates. -/
def toU64 : F64 → ℕ
  | nan | negInf => 0
  | posInf => 2 ^ 64 - 1
  | fin q => Nat.min ⌊q⌋.toNat (2 ^ 64 - 1)

/-! ## Sums -/

theorem zero_def : (0 : F64) = fin 0 := rfl

@[simp]
theorem fin_add_fin (a b : ℚ) : fin a + fin b = fin (a + b) := rfl

@[simp]
theorem fin_sub_fin (a b : ℚ) : fin a - fin b = fin (a - b) := by
  show fin (a + -b) = fin (a - b)
  rw [sub_eq_add_neg]

protected theorem add_comm (x y : F64) : x + y = y + x := by
  cases x <;> cases y <;> first | rfl | exact congrArg fin (add_comm _ _)

protected theorem add_assoc (x y z : F64) : x + y + z = x + (y + z) := by
  cases x <;> cases y <;> cases z <;> first | rfl | exact congrArg fin (add_assoc _ _ _)

protected theorem zero_add (x : F64) : 0 + x = x := by
  cases x <;> first | rfl | exact congrArg fin (zero_add _)

instance : AddCommMonoid F64 where
  add_assoc := F64.add_assoc
  zero_add := F64.zero_add
  add_zero x := (F64.add_comm x 0).trans (F64.zero_add x)
  add_comm := F64.add_comm
  nsmul := nsmulRec

theorem add_sub_cancel_fin (q : ℚ) (x : F64) : fin q + x - fin q = x := by
  cases x with
  | fin a => exact congrArg fin (by ring)
  | _ => rfl

theorem isFinite_iff {x : F64} : x.isFinite = true ↔ ∃ q, x = fin q := by
  cases x <;> simp [isFinite]

theorem sum_finite {s : Multiset F64} (h : ∀ x ∈ s, x.isFinite = true) : ∃ q, s.sum = fin q := by
  induction s using Multiset.induction_on with
  | empty => exact ⟨0, rfl⟩
  | cons x s ih =>
    obtain ⟨a, rfl⟩ := isFinite_iff.1 (h x (Multiset.mem_cons_self x s))
    obtain ⟨b, hb⟩ := ih fun y hy => h y (Multiset.mem_cons_of_mem hy)
    exact ⟨a + b, by rw [Multiset.sum_cons, hb, fin_add_fin]⟩

/-! ## Extremes -/

instance : Std.Commutative (min : F64 → F64 → F64) where
  comm x y := by
    cases x <;> cases y <;> first | rfl | exact congrArg fin (min_comm _ _)

instance : Std.Associative (min : F64 → F64 → F64) where
  assoc x y z := by
    cases x <;> cases y <;> cases z <;> first | rfl | exact congrArg fin (min_assoc _ _ _)

instance : Std.IdempotentOp (min : F64 → F64 → F64) where
  idempotent x := by
    cases x <;> first | rfl | exact congrArg fin (min_self _)

instance : Std.Commutative (max : F64 → F64 → F64) where
  comm x y := by
    cases x <;> cases y <;> first | rfl | exact congrArg fin (max_comm _ _)

instance : Std.Associative (max : F64 → F64 → F64) where
  assoc x y z := by
    cases x <;> cases y <;> cases z <;> first | rfl | exact congrArg fin (max_assoc _ _ _)

instance : Std.IdempotentOp (max : F64 → F64 → F64) where
  idempotent x := by
    cases x <;> first | rfl | exact congrArg fin (max_self _)

def lowest (s : Multiset F64) : F64 := s.fold min posInf

def highest (s : Multiset F64) : F64 := s.fold max negInf

end F64
