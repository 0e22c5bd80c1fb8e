import ClosureConversion.Number.Shortest

/-!
Doubles as text: the shortest digits, in positional notation with at least one decimal, or with an
exponent when the number is very small or very large.
-/

namespace ClosureConversion.Number

/-- How doubles are written. -/
structure Style where
  /-- Exponents of the first digit from here on are written positionally. -/
  minPositional : Int
  /-- Exponents of the first digit from here on are written with an exponent. -/
  maxPositional : Int

/-- Positional from `0.0001` to below ten to the sixteenth. -/
def Style.plain : Style := ⟨-4, 16⟩

/-- `ds · 10 ^ exponent` without an exponent. -/
def positional (ds : List Char) (exponent : Int) : String :=
  if 0 ≤ exponent then String.ofList (ds ++ List.replicate exponent.toNat '0') ++ ".0"
  else
    let places := (-exponent).toNat
    let ds := List.replicate (places + 1 - ds.length) '0' ++ ds
    String.ofList (ds.take (ds.length - places)) ++ "." ++ String.ofList (ds.drop (ds.length - places))

/-- The first digit, the others after a point, and the exponent of the first. -/
def scientific (ds : List Char) (lead : Int) : String :=
  let mark := if ds.length ≤ 1 then "" else "."
  String.ofList (ds.take 1) ++ mark ++ String.ofList (ds.drop 1) ++ "e" ++ toString lead

def renderDecimal (style : Style) (d : Decimal) : String :=
  let ds := Nat.toDigits 10 d.digits
  let lead := d.exponent + ds.length - 1
  if style.minPositional ≤ lead ∧ lead < style.maxPositional then positional ds d.exponent
  else scientific ds lead

def renderParts (style : Style) : Parts → String
  | .nan => "NaN"
  | .infinite negative => (if negative then "-" else "") ++ "inf"
  | .finite negative m q =>
    let text := if m = 0 then "0.0" else renderDecimal style (shortest m q)
    (if negative then "-" else "") ++ text

def render (x : Float) : String := renderParts .plain (parts x)

end ClosureConversion.Number
