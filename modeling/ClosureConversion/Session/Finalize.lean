import ClosureConversion.Eval
import ClosureConversion.Session.Command

/-!
The result of a session.

When every scope is closed and one is at the top, it is converted.  If it needs no inputs the result
is a function; otherwise it is an expression that has a function as its value once the inputs are
known.
-/

namespace ClosureConversion

inductive Conversion where
  | callable (f : Closure)
  | residual (e : Expr)

namespace Conversion

def isResidual : Conversion → Bool
  | .callable _ => false
  | .residual _ => true

/-- The function for these inputs. -/
def instantiate (depth : Nat) (inputs : Inputs) : Conversion → EvalM Closure
  | .callable f => pure f
  | .residual e => do
    match ← e.evaluate depth inputs with
    | .function f => return f
    | v => .fail (.misuse (.notFunction v.kind))

end Conversion

structure Finished where
  result : Conversion
  /-- Inputs that a live scope reads. -/
  used : InputUse

namespace Session

/-- The result of converting the scope `root`. -/
def convertRoot (closed : ScopeTable) (root : ScopeId) (plan : Plan) : ConvertM Conversion := do
  match (closed.get? root).bind Scope.compiled with
  | some f => return .callable f
  | none =>
    match ← plan.convert .root with
    | .delegate _ f => return .callable f
    | .lambda label params body => return .callable (← ConvertM.compile ⟨label, params, body⟩)
    | e => return .residual e

def finalize (s : Session) : ConvertM Finished := do
  unless s.stack.isEmpty do throw (.breach (.unclosedScopes s.stack.length))
  match s.roots with
  | [root] =>
    let (plan, used) := (Plan.build s.closed root).run {}
    let plan ← .ofExcept plan
    return ⟨← convertRoot s.closed root plan, used⟩
  | roots => throw (.breach (.rootCount roots.length))

end Session

end ClosureConversion
