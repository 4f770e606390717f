import Loadr.Lib.Rounding

/-!
# Durations

Durations are numbers of nanoseconds, and so are instants, counted from some moment before all of
them.
-/

namespace Duration

/-- The duration of a number of seconds, to the nearest nanosecond.  There is none for a number that
is negative, too large or not finite; the conversion panics then. -/
def fromSecsF64 : F64 → Option ℕ
  | .fin q => if 0 ≤ q ∧ q < 2 ^ 64 then some (F64.roundEven (q * 10 ^ 9)).toNat else none
  | _ => none

end Duration
