import ClosureConversion.Number.Binary

/-!
The remainder of a division of doubles whose quotient is cut off toward zero.

The result is exact: both operands are brought to the smaller of their exponents, where the
remainder is one of natural numbers.  It has the sign of the dividend, also when it is zero.
-/

namespace ClosureConversion.Number

def notANumber : Float := 0.0 / 0.0

/-- `x - y · trunc (x / y)`; no number if `x` is infinite or `y` is zero. -/
def remainder (x y : Float) : Float :=
  match parts x, parts y with
  | .finite negative m p, .finite _ n q =>
    if n = 0 then notANumber
    else
      let base := min p q
      let r := (m * Nat.pow 2 (p - base).toNat) % (n * Nat.pow 2 (q - base).toNat)
      ofParts negative r base
  | .finite .., .infinite _ => x
  | _, _ => notANumber

end ClosureConversion.Number
