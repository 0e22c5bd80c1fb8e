import ClosureConversion.Number.Word
import ClosureConversion.Session.Close

/-!
A session as a run of commands.

`Session.exec` is one command: a command that fails has an answer too, and the session goes on from
the state it leaves.  `Session.run` is a list of them.

The ids that `exec` hands out are numbers without bound.  The two counters of a session are 32-bit
words: `Session.execWord` is a command of a session with such counters.  A command takes at most one
id from each counter, so it is enough to wrap them after it.  Both are the same until a counter
reaches `Word.size`, which takes as many commands (`ClosureConversion.Proofs.Counters`).
-/

namespace ClosureConversion

inductive Command where
  | enter (span : Span)
  | declare (ty : Ty) (name : String) (span : Span)
  | begin
  | lookup (name : String)
  | argument (index : Nat) (ty : Ty)
  | var (name : String) (ty : Ty)
  | close (body : Expr) (eager : Bool)

inductive Answer where
  | scope (id : ScopeId)
  | begun
  | expr (e : Expr)
  /-- No parameter has the name looked up. -/
  | notFound

namespace Session

/-- The answer and the next session of a command that changes nothing when it fails. -/
def settle {α : Type} (s : Session) (answer : α → Answer) :
    Except ConversionError (α × Session) → Except ConversionError Answer × Session
  | .ok (a, s) => (.ok (answer a), s)
  | .error e => (.error e, s)

def exec (s : Session) : Command → StateM Store (Except ConversionError Answer × Session)
  | .enter span => return s.settle .scope (s.enter span)
  | .declare ty name span => return s.settle (.expr <| .loc ·) (s.declare ty name span)
  | .begin => return s.settle (fun _ => .begun) ((Unit.unit, ·) <$> s.begin)
  | .lookup name => return s.settle (·.elim .notFound .expr) (s.lookup name)
  | .argument index ty => return s.settle .expr (s.argument index ty)
  | .var name ty => return s.settle .expr (s.var name ty)
  | .close body eager => do
    let (r, s) ← s.close body eager
    return (r.map .expr, s)

/-- The session with its counters as words. -/
def wrapCounters (s : Session) : Session :=
  { s with freshScope := Word.wrap s.freshScope, freshLocal := Word.wrap s.freshLocal }

/-- A command of a session whose counters are words. -/
def execWord (s : Session) (c : Command) :
    StateM Store (Except ConversionError Answer × Session) := do
  let (a, s) ← s.exec c
  return (a, s.wrapCounters)

/-- The answers to a list of commands, and the session after them. -/
def run (s : Session) :
    List Command → StateM Store (List (Except ConversionError Answer) × Session)
  | [] => return ([], s)
  | c :: cs => do
    let (a, s) ← s.exec c
    let (as, s) ← s.run cs
    return (a :: as, s)

end Session

end ClosureConversion
