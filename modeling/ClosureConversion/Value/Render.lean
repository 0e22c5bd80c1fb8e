import ClosureConversion.Number.Text
import ClosureConversion.Text.Quoted
import ClosureConversion.Value.Basic

/-! Values as text, for a reader.  Functions show their number of parameters only. -/

namespace ClosureConversion.Datum

mutual

def render : Value → String
  | .void => "void"
  | .bool b => if b then "true" else "false"
  | .int n => toString n.toInt
  | .number x => Number.render x
  | .string s => Text.quoted s
  | .array items => "[" ++ ", ".intercalate (renderItems items) ++ "]"
  | .function f => s!"<function/{f.arity}>"
  | .carrier _ shape fields => shape.ty.render ++ "[" ++ ", ".intercalate (renderItems fields) ++ "]"

def renderItems : List Value → List String
  | [] => []
  | v :: vs => render v :: renderItems vs

end

end ClosureConversion.Datum
