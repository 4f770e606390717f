import Mathlib.Data.List.Basic

/-!
# Readers

A reader takes items off the front of its input and may fail.  `Reads x b v` says that `x` takes
exactly the items `b` and gives `v`, whatever follows them; readers in sequence take their items in
sequence.
-/

namespace Reader

variable {ε β α γ : Type} {x : StateT (List β) (Except ε) α} {f : α → StateT (List β) (Except ε) γ}
  {b c : List β} {v : α} {w : γ}

def Reads (x : StateT (List β) (Except ε) α) (b : List β) (v : α) : Prop :=
  ∀ rest, x (b ++ rest) = .ok (v, rest)

theorem reads_pure (v : α) : Reads (pure v : StateT (List β) (Except ε) α) [] v := fun _ => rfl

theorem Reads.run (hx : Reads x b v) (rest : List β) : (x >>= f) (b ++ rest) = f v rest := by
  change (x (b ++ rest) >>= fun p => f p.1 p.2) = _
  rw [hx]
  rfl

theorem Reads.bind (hx : Reads x b v) (hf : Reads (f v) c w) : Reads (x >>= f) (b ++ c) w := by
  intro rest
  rw [List.append_assoc, hx.run]
  exact hf rest

theorem Reads.last (hx : Reads x b v) (hf : Reads (f v) [] w) : Reads (x >>= f) b w := by
  simpa using hx.bind hf

/-- The next `n` items; there may be too few. -/
def readExact (e : ε) (n : ℕ) : StateT (List β) (Except ε) (List β) := fun input =>
  if n ≤ input.length then .ok (input.take n, input.drop n) else .error e

theorem reads_readExact (e : ε) (b : List β) : Reads (readExact e b.length) b b := by
  intro rest
  simp [readExact]

end Reader
