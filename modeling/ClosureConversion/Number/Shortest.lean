import ClosureConversion.Number.Binary

/-!
The shortest decimal that reads back as a given double.

The reals that round to `m · 2 ^ q` form an interval around it, whose ends belong to it if `m` is
even.  For one digit, two digits and so on, the two decimals of that many digits next to the number
are tried; the first number of digits with a decimal in the interval wins.  Of two, the nearer is
taken, and at equal distance the upper.  All arithmetic is on natural numbers.
-/

namespace ClosureConversion.Number

/-- `digits · 10 ^ exponent`. -/
structure Decimal where
  digits : Nat
  exponent : Int
deriving DecidableEq, Inhabited

/-- `m · 2 ^ q` and the ends of its interval are `4 m`, `lower` and `upper` times `2 ^ (q - 2)`. -/
structure Interval where
  lower : Nat
  upper : Nat
  closed : Bool

/-- Below a power of two the doubles are twice as dense. -/
def interval (m : Nat) (q : Int) : Interval where
  lower := if m = Nat.pow 2 52 ∧ minExponent < q then 4 * m - 1 else 4 * m - 2
  upper := 4 * m + 2
  closed := m % 2 == 0

def Interval.contains (i : Interval) (unit point grid : Nat) : Bool :=
  if i.closed then i.lower * unit ≤ point * grid && point * grid ≤ i.upper * unit
  else i.lower * unit < point * grid && point * grid < i.upper * unit

/-- A multiple of `10 ^ k` next to `m · 2 ^ q` that reads back as it. -/
def onGrid? (m : Nat) (q k : Int) : Option Decimal :=
  -- in a common unit, `2 ^ (q - 2)` is `unit` and `10 ^ k` is `grid`
  let unit := Nat.pow 2 (q - 2).toNat * Nat.pow 10 (-k).toNat
  let grid := Nat.pow 10 k.toNat * Nat.pow 2 (2 - q).toNat
  let low := 4 * m * unit / grid
  let rest := 4 * m * unit % grid
  let inside := fun n => (interval m q).contains unit n grid
  match inside low, inside (low + 1) with
  | true, true => some ⟨if 2 * rest < grid then low else low + 1, k⟩
  | true, false => some ⟨low, k⟩
  | false, true => some ⟨low + 1, k⟩
  | false, false => none

/-- The exponent of the first digit of `m · 2 ^ q`, for a positive double. -/
def leadingExponent (m : Nat) (q : Int) : Int :=
  let below := fun (e : Int) =>
    m * Nat.pow 2 q.toNat * Nat.pow 10 (-e).toNat < Nat.pow 10 e.toNat * Nat.pow 2 (-q).toNat
  ((List.range 640).map fun (i : Nat) => (i : Int) - 330).find? (fun e => below (e + 1)) |>.getD 0

/-- Seventeen digits tell all doubles apart. -/
def maxDigits : Nat := 17

/-- Without the zeros at the end of the digits. -/
def Decimal.trim (d : Decimal) : (fuel : Nat) → Decimal
  | 0 => d
  | fuel + 1 =>
    if d.digits ≠ 0 ∧ d.digits % 10 = 0 then Decimal.trim ⟨d.digits / 10, d.exponent + 1⟩ fuel
    else d

/-- The shortest decimal for `m · 2 ^ q`, with `0 < m`. -/
def shortest (m : Nat) (q : Int) : Decimal :=
  let lead := leadingExponent m q
  let hit := (List.range maxDigits).findSome? fun (n : Nat) => onGrid? m q (lead - n)
  (hit.getD ⟨0, 0⟩).trim (maxDigits + 1)

end ClosureConversion.Number
