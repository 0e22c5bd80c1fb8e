/-!
Types of the expression language.

A carrier type, the record that holds what a closure captured, is named by a number; the table
that hands the numbers out is in `ClosureConversion.Shape`.  `Ty.accepts` is the compatibility
check of the front end: `any` stands for every type, on either side and inside arrays.
-/

namespace ClosureConversion

inductive Ty where
  | void
  | bool
  | int
  | number
  | string
  | array (item : Ty)
  | function (params : List Ty) (result : Ty)
  | carrier (shape : Nat)
  | any
deriving Inhabited

namespace Ty

/-! ## Equality -/

mutual

def eqb : Ty → Ty → Bool
  | .void, .void => true
  | .bool, .bool => true
  | .int, .int => true
  | .number, .number => true
  | .string, .string => true
  | .any, .any => true
  | .array a, .array b => eqb a b
  | .function ps r, .function qs s => eqbAll ps qs && eqb r s
  | .carrier m, .carrier n => m == n
  | _, _ => false

def eqbAll : List Ty → List Ty → Bool
  | [], [] => true
  | a :: as, b :: bs => eqb a b && eqbAll as bs
  | _, _ => false

end

mutual

theorem eqb_iff : ∀ a b : Ty, eqb a b = true ↔ a = b
  | .void, b => by cases b <;> simp [eqb]
  | .bool, b => by cases b <;> simp [eqb]
  | .int, b => by cases b <;> simp [eqb]
  | .number, b => by cases b <;> simp [eqb]
  | .string, b => by cases b <;> simp [eqb]
  | .any, b => by cases b <;> simp [eqb]
  | .carrier _, b => by cases b <;> simp [eqb]
  | .array a, b => by cases b <;> simp [eqb, eqb_iff a]
  | .function ps r, b => by cases b <;> simp [eqb, eqbAll_iff ps, eqb_iff r]

theorem eqbAll_iff : ∀ as bs : List Ty, eqbAll as bs = true ↔ as = bs
  | [], bs => by cases bs <;> simp [eqbAll]
  | a :: as, bs => by cases bs <;> simp [eqbAll, eqb_iff a, eqbAll_iff as]

end

instance : DecidableEq Ty := fun a b => decidable_of_iff _ (eqb_iff a b)

/-! ## Compatibility -/

/-- Type of the argument vector that all scopes share. -/
def argVector : Ty := .array .any

/-- Number of parameters of a function type. -/
def arity? : Ty → Option Nat
  | .function params _ => some params.length
  | _ => none

/-- A value of type `b` may be stored where `a` is expected. -/
def accepts : (a b : Ty) → Bool
  | .any, _ => true
  | _, .any => true
  | .array a, .array b => accepts a b
  | a, b => a == b

/-! ## Text -/

mutual

def render : Ty → String
  | .void => "void"
  | .bool => "bool"
  | .int => "int"
  | .number => "number"
  | .string => "string"
  | .any => "any"
  | .array item => render item ++ "[]"
  | .function params result => "(" ++ renderAll params ++ ") -> " ++ render result
  | .carrier shape => "carrier#" ++ toString shape

/-- The types of a parameter list, with a comma and a blank between neighbours. -/
def renderAll : List Ty → String
  | [] => ""
  | [t] => render t
  | t :: ts => render t ++ ", " ++ renderAll ts

end

end Ty

end ClosureConversion
