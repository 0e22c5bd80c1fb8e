import ClosureConversion.ConversionError
import ClosureConversion.Source.Text

/-! Diagnostics: what is reported to the author of an expression. -/

namespace ClosureConversion

namespace Diagnostic

inductive Severity where
  | note | error
deriving DecidableEq

def Severity.name : Severity → String
  | .note => "note"
  | .error => "error"

inductive Code where
  | repeatedName | tooManyParams | breach | rejectedCode
deriving DecidableEq

namespace Code

def name : Code → String
  | .repeatedName => "N001"
  | .tooManyParams => "A001"
  | .breach => "I001"
  | .rejectedCode => "I002"

/-- The fault is in the compiler or in the front end, not in the expression. -/
def isInternal : Code → Bool
  | .breach | .rejectedCode => true
  | .repeatedName | .tooManyParams => false

end Code

/-- A remark on another place. -/
structure Remark where
  span : Span
  message : String
deriving DecidableEq

end Diagnostic

structure Diagnostic where
  code : Diagnostic.Code
  severity : Diagnostic.Severity := .error
  message : String
  span : Span := .dummy
  remarks : List Diagnostic.Remark := []
  help : Option String := none
deriving DecidableEq

namespace Diagnostic

def isError (d : Diagnostic) : Bool := d.severity == .error

/-- Adds a remark; one that has no place is dropped. -/
def withRemark (d : Diagnostic) (span : Span) (message : String) : Diagnostic :=
  if span.isDummy then d else { d with remarks := d.remarks ++ [⟨span, message⟩] }

end Diagnostic

/-- How an error of the conversion is reported. -/
def ConversionError.toDiagnostic (e : ConversionError) : Diagnostic :=
  match e with
  | .namingConflict _ span first =>
    Diagnostic.withRemark { code := .repeatedName, message := e.message, span } first
      "first declared here"
  | .tooManyParams _ limit span =>
    { code := .tooManyParams, message := e.message, span
      help := some s!"a capturing lambda may declare at most {limit - 1} parameter(s)" }
  | .breach _ => { code := .breach, message := e.message }
  | .code _ => { code := .rejectedCode, message := e.message }

end ClosureConversion
