import ClosureConversion.Fault
import ClosureConversion.Number.Remainder
import ClosureConversion.Value.Basic

/-!
The operators on values.

Integers are 64-bit words: their arithmetic wraps, division cuts off toward zero.  Two integers stay
integers, two strings can be joined, and anything else is computed on doubles.
-/

namespace ClosureConversion

variable {φ : Type}

def wrongType (expected : Ty) (v : Datum φ) : Fault := .type expected v.kind

/-- `v` where a value of type `ty` is needed. -/
def Datum.checked [Callable φ] (ty : Ty) (v : Datum φ) : Except Fault (Datum φ) :=
  if v.conforms ty then .ok v else .error (wrongType ty v)

def Datum.toBool (v : Datum φ) : Except Fault Bool :=
  match v with
  | .bool b => .ok b
  | v => .error (wrongType .bool v)

def Datum.toNumber (v : Datum φ) : Except Fault Float :=
  match v.number? with
  | some x => .ok x
  | none => .error (wrongType .number v)

def UnaryOp.apply : UnaryOp → Datum φ → Except Fault (Datum φ)
  | .neg, .int n => .ok (.int (-n))
  | .neg, .number x => .ok (.number (-x))
  | .neg, v => .error (wrongType .number v)
  | .not, .bool b => .ok (.bool !b)
  | .not, v => .error (wrongType .bool v)

namespace BinaryOp

def onInts (a b : Int64) : BinaryOp → Except Fault Int64
  | .add => .ok (a + b)
  | .sub => .ok (a - b)
  | .mul => .ok (a * b)
  | .div => if b = 0 then .error .divisionByZero else .ok (a / b)
  | .mod => if b = 0 then .error .divisionByZero else .ok (a % b)

def onNumbers (x y : Float) : BinaryOp → Float
  | .add => x + y
  | .sub => x - y
  | .mul => x * y
  | .div => x / y
  | .mod => Number.remainder x y

def apply : BinaryOp → Datum φ → Datum φ → Except Fault (Datum φ)
  | op, .int a, .int b => .int <$> op.onInts a b
  | .add, .string s, .string t => .ok (.string (s ++ t))
  | op, v, w => do
    let x ← v.toNumber
    let y ← w.toNumber
    return .number (op.onNumbers x y)

end BinaryOp

/-- The order of two doubles; a NaN has none. -/
def Number.order? (x y : Float) : Option Ordering :=
  if x < y then some .lt
  else if y < x then some .gt
  else if x == y then some .eq
  else none

/-- The order of two values: strings by code point, integers, numbers of either sort. -/
def Datum.order? : Datum φ → Datum φ → Option Ordering
  | .string s, .string t => some (Ord.compare s t)
  | .int a, .int b => some (Ord.compare a b)
  | v, w =>
    match v.number?, w.number? with
    | some x, some y => Number.order? x y
    | _, _ => none

namespace Comparison

/-- Whether an order satisfies the comparison. -/
def holds : Comparison → Ordering → Bool
  | .eq, o => o.isEq
  | .ne, o => o.isNe
  | .lt, o => o.isLT
  | .le, o => o.isLE
  | .gt, o => o.isGT
  | .ge, o => o.isGE

/-- Without an order, values can still be equal or not; to ask for more is a fault of the left
value if it is no number, else of the right one. -/
def apply [Callable φ] (op : Comparison) (v w : Datum φ) : Except Fault Bool :=
  match v.order? w, op with
  | some o, op => .ok (op.holds o)
  | none, .eq => .ok (v.same w)
  | none, .ne => .ok (!v.same w)
  | none, _ => .error (wrongType .number (if v.number?.isNone then v else w))

end Comparison

end ClosureConversion
