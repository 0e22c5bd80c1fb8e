import ClosureConversion.Session.Basic

/-!
Closing a scope.

The finished body decides what the scope captures: what it reads itself, and what the scopes it uses
need from further out.  All of that must have been requested.  A scope within that the body does not
use is dead.

Whatever goes wrong from here on, the scope is open no more.
-/

namespace ClosureConversion

/-- What a body reads from outside, and the scopes that it uses. -/
structure BodyUse where
  env : Env := {}
  tokens : List ScopeId := []
deriving Inhabited

namespace Draft

/-- Takes a requested slot over into the environment of the body. -/
def grant (d : Draft) (env : Env) (v : Capture) : Except Breach Env :=
  match d.requested.slot? v with
  | some slot => .ok (env.insert slot)
  | none => .error (.unrequestedCapture d.id v)

/-- What one node of the body adds. -/
def see (d : Draft) (u : BodyUse) : Expr → Except Breach BodyUse
  | .loc id =>
    if id ∈ d.params.map Param.id then .ok u
    else return { u with env := ← d.grant u.env (.loc id) }
  | .args => return { u with env := ← d.grant u.env .args }
  | .arg .args index _ => .ok { u with env := u.env.request (.argument index) }
  | .var name ty =>
    return { u with env := (← d.grant u.env (.var name)).request (.var name ty) }
  | .placeholder scope | .delegate scope _ =>
    if scope ∈ d.children then .ok { u with tokens := scope :: u.tokens }
    else .error (.unknownScope d.id scope)
  | _ => .ok u

/-- What the body uses; the first offence in pre-order is reported. -/
def uses (d : Draft) (body : Expr) : Except Breach BodyUse := body.nodes.foldlM d.see {}

/-- Adds what the scopes in use need from further out. -/
def gather (d : Draft) (closed : ScopeTable) (u : BodyUse) : Env :=
  (d.children.filter (· ∈ u.tokens)).foldl (fun env child =>
    ((closed.get? child).bind Scope.env?).elim env (env.forward · d.id)) u.env

/-- Everything captured was requested; if not, the first capture that was not is reported. -/
def checkRequested (d : Draft) (env : Env) : Except Breach Unit :=
  if env.isSubset d.requested then .ok ()
  else
    match env.slots.find? (!d.requested.contains ·.value) with
    | some slot => .error (.unrequestedCapture d.id slot.value)
    | none =>
      match env.indices.firstMissing? d.requested.indices with
      | some index => .error (.unrequestedArgument d.id index)
      | none => .error (.unrequestedCapture d.id .args)

end Draft

namespace Session

/-- Name of the carrier parameter. -/
def carrierName : String := "$env"

/-- How a scope receives this environment, and the next free parameter id. -/
def carry (env : Env) (span : Span) (freshLocal : LocalId) :
    ExceptT Breach (StateM Store) (Option Carried × LocalId) := do
  if env.isEmpty then return (none, freshLocal)
  let layout ← Layout.ofTypes env.types
  return (some ⟨env, layout, ⟨freshLocal, carrierName, layout.headTy, span⟩⟩, freshLocal + 1)

/-- Compiles a recorded scope that needs nothing from outside, with the scopes within it. -/
def compileAlone (closed : ScopeTable) (id : ScopeId) : ConvertM (Option Closure) := do
  let plan ← .ofExcept ((Plan.build closed id).run {}).1
  match ← plan.convert .root with
  | .delegate _ f => return some f
  | _ => return none

/-- Makes a closed scope a child of the scope around it. -/
def attach (s : Session) (id : ScopeId) : Session :=
  match s.stack with
  | d :: outer => { s with stack := { d with children := d.children ++ [id] } :: outer }
  | [] => { s with roots := s.roots ++ [id] }

/-- Records a scope, compiles it if it is to be compiled at once, and attaches it. -/
def record (s : Session) (scope : Scope) :
    StateM Store (Except ConversionError Expr × Session) := do
  let s := { s with closed := s.closed.insert scope.id scope }
  if scope.eager && scope.isStatic then
    match ← (compileAlone s.closed scope.id).run with
    | .error e => return (.error e, s)
    | .ok compiled =>
      let scope := { scope with compiled }
      return (.ok scope.token, attach { s with closed := s.closed.insert scope.id scope } scope.id)
  return (.ok scope.token, attach s scope.id)

/-- Closes the current scope with its body.  The answer is what the surrounding body writes for it.

With `eager`, a scope that captures nothing is compiled at once. -/
def close (s : Session) (body : Expr) (eager : Bool) :
    StateM Store (Except ConversionError Expr × Session) := do
  match s.building with
  | .error e => return (.error e, s)
  | .ok (d, outer) =>
    let s := { s with stack := outer }
    match d.uses body with
    | .error b => return (.error (.breach b), s)
    | .ok u =>
      let env := d.gather s.closed u
      let unused := d.children.filter (· ∉ u.tokens)
      let s := { s with closed := unused.foldl ScopeTable.retire s.closed }
      match d.checkRequested env with
      | .error b => return (.error (.breach b), s)
      | .ok () =>
        match ← (carry env d.span s.freshLocal).run with
        | .error b => return (.error (.breach b), s)
        | .ok (carried, freshLocal) =>
          record { s with freshLocal }
            { id := d.id, span := d.span, params := d.params, body, carried, eager
              children := d.children }

end Session

end ClosureConversion
