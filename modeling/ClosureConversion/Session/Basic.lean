import ClosureConversion.Plan

/-!
Sessions: the scopes of one expression while a front end builds it.

Scopes nest as a stack.  A scope is opened, its parameters are declared, its body is begun, scopes
within it are opened and closed, and at last it is closed with its body
(`ClosureConversion.Session.Close`).

While the body is built, captures are requested on every open scope between the place of a reference
and the scope that declares the value, whether or not the reference ends up in the body.

Each scope takes the id `freshScope`, and each parameter, declared or of a carrier, takes `freshLocal`.
The two counters have no bound here, and every command raises each by one at most, so that after `n`
commands all ids of scopes are at most `n` and those of parameters below `n`
(`Session.ids_follow`).  They are 32-bit words in `Session.execWord`, where they wrap, and the
ids of both are the same for as long as they fit (`ClosureConversion.Proofs.Counters`).
-/

namespace ClosureConversion

/-- A scope that is being built. -/
structure Draft where
  id : ScopeId
  span : Span
  /-- The parameter list is complete. -/
  building : Bool := false
  params : List Param := []
  requested : Env := {}
  children : List ScopeId := []
deriving Inhabited

namespace Draft

def param? (d : Draft) (name : String) : Option Param := d.params.find? (·.name == name)

def request (d : Draft) (r : Request) : Draft := { d with requested := d.requested.request r }

end Draft

structure Session where
  /-- Open scopes, the innermost first. -/
  stack : List Draft := []
  closed : ScopeTable := ∅
  /-- Closed scopes that are in no other. -/
  roots : List ScopeId := []
  freshScope : ScopeId := rootScope + 1
  freshLocal : LocalId := 0
deriving Inhabited

namespace Session

def current? (s : Session) : Option ScopeId := s.stack.head?.map Draft.id

def depth (s : Session) : Nat := s.stack.length

/-- Parameters of a scope, as far as they are declared. -/
def parameters? (s : Session) (id : ScopeId) : Option (List Param) :=
  match s.stack.find? (·.id == id) with
  | some d => some d.params
  | none => (s.closed.get? id).map Scope.params

/-- The innermost scope, whose body is being built, and those around it. -/
def building (s : Session) : Except ConversionError (Draft × List Draft) :=
  match s.stack with
  | [] => .error (.breach .noOpenScope)
  | d :: outer => if d.building then .ok (d, outer) else .error (.breach (.parametersLocked d.id))

/-- The innermost scope, whose parameters are being declared, and those around it. -/
def declaring (s : Session) : Except ConversionError (Draft × List Draft) :=
  match s.stack with
  | [] => .error (.breach .noOpenScope)
  | d :: outer => if d.building then .error (.breach (.parametersClosed d.id)) else .ok (d, outer)

/-- Opens a scope within the current one. -/
def enter (s : Session) (span : Span) : Except ConversionError (ScopeId × Session) := do
  unless s.stack.isEmpty do let _ ← s.building
  let id := s.freshScope
  return (id, { s with stack := { id, span } :: s.stack, freshScope := id + 1 })

/-- Declares the next parameter of the current scope. -/
def declare (s : Session) (ty : Ty) (name : String) (span : Span) :
    Except ConversionError (LocalId × Session) := do
  let (d, outer) ← s.declaring
  match d.param? name with
  | some first => throw (.namingConflict name span first.span)
  | none =>
    let id := s.freshLocal
    let d := { d with params := d.params ++ [⟨id, name, ty, span⟩] }
    return (id, { s with stack := d :: outer, freshLocal := id + 1 })

/-- Completes the parameter list of the current scope. -/
def begin (s : Session) : Except ConversionError Session := do
  let (d, outer) ← s.declaring
  return { s with stack := { d with building := true } :: outer }

/-- Finds the parameter called `name`, innermost scope first, and requests it on every scope inside
the one that declares it. -/
def resolve (name : String) : List Draft → Option (Param × ScopeId × List Draft)
  | [] => none
  | d :: outer =>
    match d.param? name with
    | some p => some (p, d.id, d :: outer)
    | none =>
      (resolve name outer).map fun (p, owner, outer) =>
        (p, owner, d.request (.loc p.id p.ty owner) :: outer)

/-- A reference to a parameter in scope, if there is one of this name. -/
def lookup (s : Session) (name : String) : Except ConversionError (Option Expr × Session) := do
  let _ ← s.building
  match resolve name s.stack with
  | none => return (none, s)
  | some (p, _, stack) => return (some (.loc p.id), { s with stack })

/-- A reference to an entry of the argument vector. -/
def argument (s : Session) (index : Nat) (ty : Ty) : Except ConversionError (Expr × Session) := do
  let _ ← s.building
  return (.arg .args index ty, { s with stack := s.stack.map (·.request (.argument index)) })

/-- A reference to a variable that the caller supplies. -/
def var (s : Session) (name : String) (ty : Ty) : Except ConversionError (Expr × Session) := do
  let _ ← s.building
  return (.var name ty, { s with stack := s.stack.map (·.request (.var name ty)) })

end Session

end ClosureConversion
