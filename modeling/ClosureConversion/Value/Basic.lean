import ClosureConversion.Closure

/-!
Conformance and equality of values.

`conforms v ty` says when `v` may be stored where `ty` is expected; functions are compared with a
function type by their number of parameters only, carriers by the number of their shape.

`same` is the equality that programs see.  Numbers are compared as numbers, so a NaN differs from
itself and the two zeros are equal.  Functions are equal by identity.  Carriers are equal by
identity or by shape and fields.
-/

namespace ClosureConversion

namespace Datum

variable {φ : Type}

/-- The number that a value stands for in mixed arithmetic. -/
def number? : Datum φ → Option Float
  | .int n => some n.toFloat
  | .number x => some x
  | _ => none

variable [Callable φ]

mutual

def conforms : Datum φ → Ty → Bool
  | _, .any => true
  | .void, .void => true
  | .bool _, .bool => true
  | .int _, .int => true
  | .number _, .number => true
  | .string _, .string => true
  | .array items, .array item => allConform items item
  | .function f, .function params _ => Callable.arity f == params.length
  | .carrier _ shape _, .carrier id => shape.id == id
  | _, _ => false

def allConform : List (Datum φ) → Ty → Bool
  | [], _ => true
  | v :: vs, ty => conforms v ty && allConform vs ty

end

mutual

def same : Datum φ → Datum φ → Bool
  | .void, .void => true
  | .bool a, .bool b => a == b
  | .int a, .int b => a == b
  | .number a, .number b => a == b
  | .string a, .string b => a == b
  | .array as, .array bs => sameAll as bs
  | .function f, .function g => Callable.same f g
  | .carrier l s as, .carrier k r bs => l == k || (s.id == r.id && sameAll as bs)
  | _, _ => false

def sameAll : List (Datum φ) → List (Datum φ) → Bool
  | [], [] => true
  | a :: as, b :: bs => same a b && sameAll as bs
  | _, _ => false

end

theorem allConform_eq_all (vs : List (Datum φ)) (ty : Ty) :
    allConform vs ty = vs.all (conforms · ty) := by
  induction vs with
  | nil => rfl
  | cons v vs ih => simp [allConform, ih]

end Datum

end ClosureConversion
