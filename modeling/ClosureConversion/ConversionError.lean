import ClosureConversion.Env
import ClosureConversion.Verify

/-!
Errors of closure conversion.

Two of them are errors of the program being converted and have a place in its text.  A `Breach` is
one of the front end, which broke the protocol of a session; the last sort is code that the compiler
rejects.
-/

namespace ClosureConversion

/-- A rule of the conversion that does not hold. -/
inductive Breach where
  | noOpenScope
  | parametersLocked (scope : ScopeId)
  | parametersClosed (scope : ScopeId)
  | unclosedScopes (count : Nat)
  | rootCount (count : Nat)
  | unrequestedCapture (scope : ScopeId) (value : Capture)
  | unrequestedArgument (scope : ScopeId) (index : Nat)
  | unknownScope (parent scope : ScopeId)
  | missingParentSlot (scope : ScopeId) (value : Capture)
  | unresolvedPlaceholder (scope : ScopeId)
  | slotOutOfRange (index count : Nat)
  | missingCarrierField (slot arity : Nat)
  | carrierValueCount (expected found : Nat)
  | emptyCarrier
deriving DecidableEq

def Breach.message : Breach → String
  | .noOpenScope => "no lambda scope is open"
  | .parametersLocked scope => s!"scope {scope} is still declaring parameters"
  | .parametersClosed scope => s!"scope {scope} has already started its body"
  | .unclosedScopes count => s!"the session was finalized with {count} scope(s) still open"
  | .rootCount count => s!"expected exactly one top-level scope, found {count}"
  | .unrequestedCapture scope value =>
    s!"scope {scope} uses {value.describe} without having requested the capture"
  | .unrequestedArgument scope index =>
    s!"scope {scope} reads argument {index} without having requested it"
  | .unknownScope parent scope =>
    s!"scope {parent} references scope {scope}, which is not one of its children"
  | .missingParentSlot scope value => s!"parent of scope {scope} does not provide {value.describe}"
  | .unresolvedPlaceholder scope => s!"placeholder for scope {scope} has no compiled replacement"
  | .slotOutOfRange index count =>
    s!"carrier slot {index} is out of range for {count} captured value(s)"
  | .missingCarrierField slot arity =>
    s!"carrier type with {arity} field(s) has no field at position {slot}"
  | .carrierValueCount expected found =>
    s!"carrier layout expects {expected} value(s), got {found}"
  | .emptyCarrier => "a carrier must hold at least one value"

inductive ConversionError where
  /-- A lambda declares a name twice. -/
  | namingConflict (name : String) (span first : Span)
  | tooManyParams (count limit : Nat) (span : Span)
  | breach (b : Breach)
  | code (e : CodeError)
deriving DecidableEq

namespace ConversionError

def message : ConversionError → String
  | .namingConflict name _ _ => "parameter `" ++ name ++ "` is already declared in this lambda"
  | .tooManyParams count limit _ =>
    s!"lambda needs {count} parameter(s) but callables support at most {limit}"
  | .breach b => "internal invariant violated: " ++ b.message
  | .code e => "host compiler rejected a generated lambda: " ++ e.message

/-- The session can go on: the first declaration of the name stays. -/
def isRecoverable : ConversionError → Bool
  | .namingConflict .. => true
  | _ => false

def span : ConversionError → Span
  | .namingConflict _ span _ => span
  | .tooManyParams _ _ span => span
  | _ => .dummy

end ConversionError

end ClosureConversion
