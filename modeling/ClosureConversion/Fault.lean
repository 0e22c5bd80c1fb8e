import ClosureConversion.Verify

/-! What can go wrong while code runs, and the wording of each case. -/

namespace ClosureConversion

/-- Code that should not have been run. -/
inductive Misuse where
  | rejected (e : CodeError)
  | unboundLocal (id : LocalId)
  /-- The caller's inputs are read inside a function. -/
  | noInputs
  | unsubstituted (scope : ScopeId)
  /-- A whole expression has a value that is no function. -/
  | notFunction (found : Kind)
deriving DecidableEq

def Misuse.message : Misuse → String
  | .rejected e => e.message
  | .unboundLocal id => s!"local {id} is not bound"
  | .noInputs => "root environment is not available inside a callable"
  | .unsubstituted scope => s!"placeholder for scope {scope} was never substituted"
  | .notFunction found => s!"expression produced {found.name} instead of a function"

inductive Fault where
  | argumentCount (expected found : Nat)
  | type (expected : Ty) (found : Kind)
  | notCallable (found : Kind)
  | missingField (slot arity : Nat)
  | argumentIndex (index count : Nat)
  | divisionByZero
  | unboundVariable (name : String)
  | tooManyParams (count limit : Nat)
  | misuse (m : Misuse)
deriving DecidableEq

def Fault.message : Fault → String
  | .argumentCount expected found => s!"callable expects {expected} argument(s), got {found}"
  | .type expected found => s!"expected a value of type {expected.render}, found {found.name}"
  | .notCallable found =>
    s!"expected a value of type {Ty.any.render}, found {found.name} (not callable)"
  | .missingField slot arity => s!"carrier has {arity} field(s), no field at slot {slot}"
  | .argumentIndex index count =>
    s!"argument index {index} is out of bounds for {count} argument(s)"
  | .divisionByZero => "division by zero"
  | .unboundVariable name => "variable `" ++ name ++ "` is not bound in the root environment"
  | .tooManyParams count limit =>
    s!"{count} parameter(s) exceed the maximum callable arity of {limit}"
  | .misuse m => m.message

/-- Why an evaluation ends without a value. -/
inductive Halt where
  | fault (f : Fault)
  /-- The bound on the depth of calls was reached. -/
  | tooDeep
deriving DecidableEq

end ClosureConversion
