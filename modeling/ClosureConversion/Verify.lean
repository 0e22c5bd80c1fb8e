import ClosureConversion.Closure

/-!
Checks on code before it runs.

Code is acceptable when every parameter it reads is bound, no placeholder is left, the caller's
inputs are read only where they exist, and every carrier operation fits its shape.  `Term.verify`
reports the first offence in the order in which the nodes are written; a lambda is checked over its
own parameters alone, unless it is known to be compiled.
-/

namespace ClosureConversion

/-- Why code is rejected. -/
inductive CodeError where
  | tooManyParams (count limit : Nat)
  | unboundLocal (id : LocalId)
  | unresolvedPlaceholder (scope : ScopeId)
  /-- The body of a lambda reads an input of the whole expression. -/
  | rootReference (what : String)
  | missingField (slot arity : Nat)
  | fieldCount (expected found : Nat)
deriving DecidableEq

def CodeError.message : CodeError → String
  | .tooManyParams count limit =>
    s!"{count} parameter(s) exceed the maximum callable arity of {limit}"
  | .unboundLocal id => s!"local {id} is not a parameter of the lambda being compiled"
  | .unresolvedPlaceholder scope => s!"lambda still contains the placeholder for scope {scope}"
  | .rootReference what =>
    s!"lambda body refers to the root environment ({what}) instead of its carrier"
  | .missingField slot arity => s!"carrier type has {arity} field(s), no field at slot {slot}"
  | .fieldCount expected found =>
    s!"carrier type has {expected} field(s) but {found} were supplied"

namespace Term

mutual

/-- `known` tells the lambdas that are compiled already, `bound` the parameters in scope, and
`root` whether the caller's inputs are in reach. -/
def verify (known : Label → Bool) (bound : List LocalId) (root : Bool) :
    Expr → Except CodeError Unit
  | .void | .bool _ | .int _ | .number _ | .string _ | .delegate _ _ => .ok ()
  | .loc id => if id ∈ bound then .ok () else .error (.unboundLocal id)
  | .args => if root then .ok () else .error (.rootReference "argument vector")
  | .arg vector _ _ => verify known bound root vector
  | .var name _ => if root then .ok () else .error (.rootReference ("variable `" ++ name ++ "`"))
  | .binary _ left right => do
    verify known bound root left
    verify known bound root right
  | .unary _ operand => verify known bound root operand
  | .compare _ left right => do
    verify known bound root left
    verify known bound root right
  | .logical _ left right => do
    verify known bound root left
    verify known bound root right
  | .cond test yes no => do
    verify known bound root test
    verify known bound root yes
    verify known bound root no
  | .call callee arguments => do
    verify known bound root callee
    verifyAll known bound root arguments
  | .placeholder scope => .error (.unresolvedPlaceholder scope)
  | .lambda label params body =>
    if known label then .ok ()
    else if params.length ≤ Closure.maxArity then verify known (params.map Param.id) false body
    else .error (.tooManyParams params.length Closure.maxArity)
  | .newCarrier shape fields =>
    if shape.arity = fields.length then verifyAll known bound root fields
    else .error (.fieldCount shape.arity fields.length)
  | .field carrier shape slot =>
    if slot < shape.arity then verify known bound root carrier
    else .error (.missingField slot shape.arity)
  | .bind carrier f arity =>
    if arity ≤ Closure.maxBoundArity ∧ f.arity = arity + 1 then verify known bound root carrier
    else .error (.tooManyParams f.arity Closure.maxArity)

def verifyAll (known : Label → Bool) (bound : List LocalId) (root : Bool) :
    List Expr → Except CodeError Unit
  | [] => .ok ()
  | e :: es => do
    verify known bound root e
    verifyAll known bound root es

end

end Term

end ClosureConversion
