/-!
Double-precision numbers taken apart: a finite one is `± m · 2 ^ q` with integers `m` and `q`, and
what is computed on `m` and `q` is exact.
-/

namespace ClosureConversion.Number

inductive Parts where
  | nan
  | infinite (negative : Bool)
  | finite (negative : Bool) (m : Nat) (q : Int)
deriving DecidableEq

/-- Least exponent: the subnormal numbers are multiples of `2 ^ (-1074)`. -/
def minExponent : Int := -1074

/-- The parts of the number with these 64 bits: sign, eleven bits of exponent, fraction. -/
def partsOfBits (bits : Nat) : Parts :=
  let negative := bits / Nat.pow 2 63 % 2 == 1
  let exponent := bits / Nat.pow 2 52 % Nat.pow 2 11
  let fraction := bits % Nat.pow 2 52
  if exponent = 2047 then
    if fraction = 0 then .infinite negative else .nan
  else if exponent = 0 then .finite negative fraction minExponent
  else .finite negative (Nat.pow 2 52 + fraction) (minExponent + (exponent - 1 : Nat))

/-- The bits of `± m · 2 ^ q`, for `m < 2 ^ 53` and `q` not below the least exponent. -/
def bitsOfParts (negative : Bool) (m : Nat) (q : Int) : Nat :=
  let shift := min (52 - m.log2) (q - minExponent).toNat
  let m := m * Nat.pow 2 shift
  let exponent := (q - minExponent).toNat - shift
  let hidden := Nat.pow 2 52
  let magnitude := if m < hidden then m else (exponent + 1) * hidden + (m - hidden)
  if negative then Nat.pow 2 63 + magnitude else magnitude

def parts (x : Float) : Parts := partsOfBits x.toBits.toNat

def ofParts (negative : Bool) (m : Nat) (q : Int) : Float :=
  Float.ofBits (bitsOfParts negative m q).toUInt64

example : bitsOfParts false (2 ^ 52) 0 = 0x4330000000000000 := by decide
example : bitsOfParts true 1 minExponent = 0x8000000000000001 := by decide
example : bitsOfParts false 3 (-1) = 0x3ff8000000000000 := by decide
example : partsOfBits 0x3ff8000000000000 = .finite false (3 * 2 ^ 51) (-52) := by decide

end ClosureConversion.Number
