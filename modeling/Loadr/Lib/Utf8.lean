import Mathlib.Algebra.BigOperators.Group.List.Basic
import Mathlib.Algebra.Ring.Nat

/-!
# Texts in bytes

Positions in a text are counted in the bytes of its UTF-8 encoding.
-/

namespace Utf8

variable {c : Char} {pre rest : List Char}

def size (text : List Char) : ℕ := (text.map Char.utf8Size).sum

@[simp]
theorem size_nil : size [] = 0 := rfl

@[simp]
theorem size_cons : size (c :: rest) = c.utf8Size + size rest := rfl

@[simp]
theorem size_append : size (pre ++ rest) = size pre + size rest := by
  simp [size]

end Utf8
