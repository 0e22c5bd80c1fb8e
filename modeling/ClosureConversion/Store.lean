import ClosureConversion.Verify

/-!
What all compilations and evaluations of a process share: the carrier shapes, the supply of labels,
and the functions of the lambdas that are compiled.

`Lambda.compile` compiles a lambda at most once: the first success is kept, and every later call
answers the same function.
-/

namespace ClosureConversion

structure Store where
  shapes : ShapeTable := {}
  /-- No label from here on is in use. -/
  nextLabel : Label := 0
  /-- Compiled lambdas with their functions, the newest first. -/
  functions : List (Label × Closure) := []
deriving Inhabited

namespace Store

/-- A label that nothing has yet. -/
def newLabel : StateM Store Label := fun s => (s.nextLabel, { s with nextLabel := s.nextLabel + 1 })

/-- The carrier shape with these fields. -/
def shape (fields : List Ty) : StateM Store Shape := fun s =>
  let (shape, shapes) := ShapeTable.intern fields s.shapes
  (shape, { s with shapes })

/-- The function that a lambda was compiled to. -/
def function? (s : Store) (lambda : Label) : Option Closure := s.functions.lookup lambda

def isCompiled (s : Store) (lambda : Label) : Bool := (s.function? lambda).isSome

end Store

structure Lambda where
  label : Label
  params : List Param
  body : Expr

namespace Lambda

/-- A lambda of its own identity. -/
def new (params : List Param) (body : Expr) : StateM Store Lambda := do
  return ⟨← Store.newLabel, params, body⟩

def toExpr (l : Lambda) : Expr := .lambda l.label l.params l.body

/-- Whether the lambda may be compiled, given the lambdas that are. -/
def verify (known : Label → Bool) (l : Lambda) : Except CodeError Unit :=
  if l.params.length ≤ Closure.maxArity then l.body.verify known (l.params.map Param.id) false
  else .error (.tooManyParams l.params.length Closure.maxArity)

def compile (l : Lambda) : ExceptT CodeError (StateM Store) Closure := do
  let store ← get
  match store.function? l.label with
  | some f => return f
  | none =>
    match l.verify store.isCompiled with
    | .error e => throw e
    | .ok () =>
      let f := Closure.code (← Store.newLabel) (l.params.map Param.id) l.body
      modify fun s => { s with functions := (l.label, f) :: s.functions }
      return f

end Lambda

end ClosureConversion
