import ClosureConversion.Diagnostic.Basic
import ClosureConversion.Text.Json

/-!
Diagnostics as text for a reader and as a line of JSON for tools.

The text leaves out what has no place in the files; the JSON has `null` there.
-/

namespace ClosureConversion.Diagnostic

/-- One line, then a line for each remark and one for the help. -/
def renderText (d : Diagnostic) (m : SourceMap) : String :=
  let place := (m.place? d.span).elim "" (·.render ++ ": ")
  let head := place ++ d.severity.name ++ ": " ++ d.message ++ " [" ++ d.code.name ++ "]\n"
  let remarks := d.remarks.filterMap fun r =>
    (m.place? r.span).map fun place => "  note: " ++ r.message ++ " (" ++ place.render ++ ")\n"
  let help := d.help.elim "" fun text => "  = help: " ++ text ++ "\n"
  head ++ String.join remarks ++ help

def placeJson (m : SourceMap) (s : Span) : Json :=
  .ofOption (fun p => .object
    [("column", .nat p.column), ("file", .string p.file), ("line", .nat p.line)]) (m.place? s)

def spanJson (s : Span) : Json :=
  if s.isDummy then .null else .object [("end", .nat s.stop), ("start", .nat s.start)]

/-- The fields of every object are in ascending order of their names. -/
def toJson (d : Diagnostic) (m : SourceMap) : Json :=
  .object
    [("code", .string d.code.name),
     ("help", .ofOption .string d.help),
     ("labels", .array (d.remarks.map fun r => .object
       [("location", placeJson m r.span), ("message", .string r.message)])),
     ("location", placeJson m d.span),
     ("message", .string d.message),
     ("severity", .string d.severity.name),
     ("span", spanJson d.span)]

def renderJson (d : Diagnostic) (m : SourceMap) : String := (d.toJson m).render ++ "\n"

end ClosureConversion.Diagnostic
