import ClosureConversion.Term

/-!
Values and function values.

`Datum φ` is the data of the language over function values `φ`.  A `Closure` is a function value:
compiled code without free variables, or another closure whose first argument is already fixed.
Since code can hold closures and closures hold data, `Term` and `Datum` are taken over `Closure`
itself: `Expr` and `Value`.

Functions and carriers have identity, which is their label.
-/

namespace ClosureConversion

inductive Datum (φ : Type) where
  | void
  | bool (b : Bool)
  | int (n : Int64)
  | number (x : Float)
  | string (s : String)
  | array (items : List (Datum φ))
  | function (f : φ)
  | carrier (label : Label) (shape : Shape) (fields : List (Datum φ))

/-- The sort of a value, as it is named in messages. -/
inductive Kind where
  | void | bool | int | number | string | array | function | carrier
deriving DecidableEq, Inhabited

def Kind.name : Kind → String
  | .void => "void"
  | .bool => "bool"
  | .int => "int"
  | .number => "number"
  | .string => "string"
  | .array => "array"
  | .function => "function"
  | .carrier => "carrier"

namespace Datum

variable {φ : Type}

instance : Inhabited (Datum φ) := ⟨.void⟩

def kind : Datum φ → Kind
  | .void => .void
  | .bool _ => .bool
  | .int _ => .int
  | .number _ => .number
  | .string _ => .string
  | .array _ => .array
  | .function _ => .function
  | .carrier .. => .carrier

def bool? : Datum φ → Option Bool
  | .bool b => some b
  | _ => none

def int? : Datum φ → Option Int64
  | .int n => some n
  | _ => none

def function? : Datum φ → Option φ
  | .function f => some f
  | _ => none

/-- The shape of a carrier. -/
def shape? : Datum φ → Option Shape
  | .carrier _ shape _ => some shape
  | _ => none

end Datum

/-- What data knows of its function values: how many arguments a call takes, and which are one and
the same function. -/
class Callable (φ : Type) where
  arity : φ → Nat
  same : φ → φ → Bool

inductive Closure where
  /-- Code over its own parameters. -/
  | code (label : Label) (params : List LocalId) (body : Term Closure)
  /-- `raw` with its first argument fixed; `arity` parameters are left. -/
  | bound (label : Label) (arity : Nat) (first : Datum Closure) (raw : Closure)

abbrev Expr := Term Closure

abbrev Value := Datum Closure

namespace Closure

def label : Closure → Label
  | .code label _ _ => label
  | .bound label _ _ _ => label

/-- Number of arguments of a call. -/
def arity : Closure → Nat
  | .code _ params _ => params.length
  | .bound _ arity _ _ => arity

/-- Two function values are the same function. -/
def same (f g : Closure) : Bool := f.label == g.label

instance : Callable Closure := ⟨arity, same⟩

/-- Most parameters that a function can have. -/
def maxArity : Nat := 16

/-- Most parameters that are left once the first argument is fixed. -/
def maxBoundArity : Nat := maxArity - 1

end Closure

end ClosureConversion
