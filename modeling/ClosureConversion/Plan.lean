import ClosureConversion.Scope

/-!
Conversion of a tree of scopes.

`Plan.build` collects a scope with the live scopes within it that are still to be compiled, and notes
which inputs of the whole expression they read.  `Plan.convert` then works from the inside out: each
scope becomes a function, a closed lambda, or a function bound to a carrier, and that takes the place
of its placeholder in the body of its parent.
-/

namespace ClosureConversion

/-- Inputs of the whole expression that are read somewhere. -/
structure InputUse where
  indices : SortedSet Nat := .empty
  names : SortedSet String := .empty
deriving DecidableEq, Inhabited

def InputUse.add (u : InputUse) (env : Env) : InputUse :=
  ⟨u.indices.union env.indices, u.names.union env.names⟩

/-- A scope to convert, with the scopes to convert before it. -/
inductive Plan where
  | node (scope : Scope) (children : List Plan)

abbrev ConvertM := ExceptT ConversionError (StateM Store)

namespace ConvertM

def ofExcept {α : Type} : Except Breach α → ConvertM α
  | .ok a => pure a
  | .error b => throw (.breach b)

def compile (l : Lambda) : ConvertM Closure := ExceptT.adapt .code l.compile

end ConvertM

namespace Plan

def scope : Plan → Scope
  | .node scope _ => scope

/-! ## What to convert -/

/-- The plan for `id`, if scopes nest at most `depth` deep in `t`.  The inputs are noted as they are
met, also when a scope is missing. -/
def buildWithin (t : ScopeTable) (depth : Nat) (id : ScopeId) :
    ExceptT Breach (StateM InputUse) Plan :=
  match depth, t.get? id with
  | depth + 1, some s => do
    modify fun u => s.env?.elim u u.add
    let children ← s.children.filterMapM fun child => do
      match t.get? child with
      | none => throw (.unknownScope id child)
      | some c => if c.isPending then some <$> buildWithin t depth child else pure none
    return .node s children
  | _, _ => throw (.unknownScope id id)

/-- The plan for `id`.  No chain of scopes, one within the other, is longer than the table. -/
def build (t : ScopeTable) (id : ScopeId) : ExceptT Breach (StateM InputUse) Plan :=
  buildWithin t t.size id

/-! ## Conversion -/

/-- What takes the place of a node: the converted scope for a placeholder, a read from the carrier
for a captured value. -/
def resolveNode (carried : Option Carried) (converted : ScopeId → Option Expr) (node : Expr) :
    Except Breach (Option Expr) :=
  match node with
  | .placeholder scope =>
    match converted scope with
    | some e => .ok (some e)
    | none => .error (.unresolvedPlaceholder scope)
  | node =>
    match carried, node.capture? with
    | some c, some value => (c.env.indexOf? value).mapM c.read
    | _, _ => .ok none

def resolveBody (carried : Option Carried) (converted : ScopeId → Option Expr) (body : Expr) :
    Except Breach Expr :=
  body.replaceM (resolveNode carried converted)

/-- A lambda may declare `limit` parameters; those of a closure count its carrier. -/
def limitParams (s : Scope) (limit : Nat) : ConvertM Unit :=
  if s.params.length ≤ limit then pure ()
  else throw (.tooManyParams (s.params.length + (Closure.maxArity - limit)) Closure.maxArity s.span)

/-- What stands for a scope in its parent, once its own body is converted. -/
def finish (parent : Frame) (s : Scope) (body : Expr) : ConvertM Expr :=
  match s.carried with
  | none => do
    limitParams s Closure.maxArity
    let lambda ← Lambda.new s.params body
    if s.eager then return .delegate s.id (← .compile lambda)
    return lambda.toExpr
  | some c => do
    limitParams s Closure.maxBoundArity
    let values ← .ofExcept (parent.supplies s.id c.env)
    let carrier ← .ofExcept (c.layout.construct values)
    let f ← .compile (← Lambda.new (c.param :: s.params) body)
    return .bind carrier f s.params.length

mutual

/-- The expression that stands for the scope inside `parent`. -/
def convert (parent : Frame) : Plan → ConvertM Expr
  | .node s children => do
    let converted ← convertAll s.frame children
    let body ← .ofExcept (resolveBody s.carried (converted.reverse.lookup ·) s.body)
    finish parent s body

/-- The expressions for several scopes, each with its scope. -/
def convertAll (parent : Frame) : List Plan → ConvertM (List (ScopeId × Expr))
  | [] => pure []
  | p :: ps => do
    let e ← convert parent p
    let es ← convertAll parent ps
    return (p.scope.id, e) :: es

end

end Plan

end ClosureConversion
