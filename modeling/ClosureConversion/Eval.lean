import ClosureConversion.Operator
import ClosureConversion.Store

/-!
Evaluation.

`Term.eval call ctx e` runs `e` by recursion on the tree; what a call does is the parameter `call`.
`Closure.invoke depth` ties the knot: it runs function bodies that nest at most `depth` deep and
reports `Halt.tooDeep` beyond that, since a program can call itself without end.

Subterms run left to right.  A callee that is no function is reported before its arguments run.
-/

namespace ClosureConversion

/-- What the caller of a whole expression supplies: the argument vector and the variables, where an
earlier pair hides a later one of the same name. -/
structure Inputs where
  arguments : List Value := []
  named : List (String × Value) := []
deriving Inhabited

/-- The values in reach of running code; a function has no access to the inputs. -/
structure Context where
  locals : List (LocalId × Value) := []
  inputs : Option Inputs := none

abbrev EvalM := ExceptT Halt (StateM Store)

namespace EvalM

def fail {α : Type} (f : Fault) : EvalM α := throw (.fault f)

def ofExcept {α : Type} : Except Fault α → EvalM α
  | .ok a => pure a
  | .error f => fail f

end EvalM

namespace Context

def read (ctx : Context) (id : LocalId) : EvalM Value :=
  match ctx.locals.lookup id with
  | some v => pure v
  | none => .fail (.misuse (.unboundLocal id))

def getInputs (ctx : Context) : EvalM Inputs :=
  match ctx.inputs with
  | some inputs => pure inputs
  | none => .fail (.misuse .noInputs)

end Context

namespace Datum

/-- A field that does not fit its type is reported in the order of the fields. -/
def checkFields : List Value → List Ty → Except Fault Unit
  | v :: vs, ty :: tys => do
    let _ ← v.checked ty
    checkFields vs tys
  | _, _ => .ok ()

/-- A new carrier. -/
def newCarrier (shape : Shape) (fields : List Value) : ExceptT Fault (StateM Store) Value := do
  if fields.length ≠ shape.arity then throw (.argumentCount shape.arity fields.length)
  match checkFields fields shape.fields with
  | .error f => throw f
  | .ok () => return .carrier (← Store.newLabel) shape fields

def fieldAt (fields : List Value) (slot : Nat) : Except Fault Value :=
  match fields[slot]? with
  | some v => .ok v
  | none => .error (.missingField slot fields.length)

end Datum

namespace Closure

/-- A function can be bound with this many parameters left. -/
def checkBoundArity (arity : Nat) : Except Fault Unit :=
  if arity ≤ maxBoundArity then .ok () else .error (.tooManyParams (arity + 1) maxArity)

/-- A new function: `raw` with its first argument fixed. -/
def bind (arity : Nat) (first : Value) (raw : Closure) : ExceptT Fault (StateM Store) Closure := do
  match checkBoundArity arity with
  | .error f => throw f
  | .ok () =>
    if raw.arity ≠ arity + 1 then throw (.argumentCount (arity + 1) raw.arity)
    return .bound (← Store.newLabel) arity first raw

/-- The code that a call runs, with the values of its parameters. -/
def enter : Closure → List Value → Except Fault (List (LocalId × Value) × Expr)
  | .code _ params body, vs =>
    if vs.length = params.length then .ok (params.zip vs, body)
    else .error (.argumentCount params.length vs.length)
  | .bound _ arity first raw, vs =>
    if vs.length = arity then raw.enter (first :: vs)
    else .error (.argumentCount arity vs.length)

end Closure

namespace Term

mutual

def eval (call : Closure → List Value → EvalM Value) (ctx : Context) : Expr → EvalM Value
  | .void => pure .void
  | .bool b => pure (.bool b)
  | .int n => pure (.int n)
  | .number x => pure (.number x)
  | .string s => pure (.string s)
  | .loc id => ctx.read id
  | .args => do return .array (← ctx.getInputs).arguments
  | .arg vector index ty => do
    match ← eval call ctx vector with
    | .array items =>
      match items[index]? with
      | some v => .ofExcept (v.checked ty)
      | none => .fail (.argumentIndex index items.length)
    | v => .fail (wrongType .argVector v)
  | .var name ty => do
    match (← ctx.getInputs).named.lookup name with
    | some v => .ofExcept (v.checked ty)
    | none => .fail (.unboundVariable name)
  | .binary op left right => do
    let v ← eval call ctx left
    let w ← eval call ctx right
    .ofExcept (op.apply v w)
  | .unary op operand => do
    .ofExcept (op.apply (← eval call ctx operand))
  | .compare op left right => do
    let v ← eval call ctx left
    let w ← eval call ctx right
    return .bool (← .ofExcept (op.apply v w))
  | .logical op left right => do
    let b ← .ofExcept (← eval call ctx left).toBool
    match op, b with
    | .and, false => return .bool false
    | .or, true => return .bool true
    | _, _ => return .bool (← .ofExcept (← eval call ctx right).toBool)
  | .cond test yes no => do
    let b ← .ofExcept (← eval call ctx test).toBool
    if b then eval call ctx yes else eval call ctx no
  | .call callee arguments => do
    match ← eval call ctx callee with
    | .function f => call f (← evalAll call ctx arguments)
    | v => .fail (.notCallable v.kind)
  | .placeholder scope => .fail (.misuse (.unsubstituted scope))
  | .delegate _ f => pure (.function f)
  | .lambda label params body =>
    .function <$> ExceptT.adapt (fun e => .fault (.misuse (.rejected e)))
      (Lambda.compile ⟨label, params, body⟩)
  | .newCarrier shape fields => do
    let vs ← evalAll call ctx fields
    ExceptT.adapt .fault (Datum.newCarrier shape vs)
  | .field carrier shape slot => do
    match ← eval call ctx carrier with
    | .carrier _ _ fields => .ofExcept (Datum.fieldAt fields slot)
    | v => .fail (wrongType shape.ty v)
  | .bind carrier f arity => do
    let v ← eval call ctx carrier
    .function <$> ExceptT.adapt .fault (f.bind arity v)

def evalAll (call : Closure → List Value → EvalM Value) (ctx : Context) :
    List Expr → EvalM (List Value)
  | [] => pure []
  | e :: es => do
    let v ← eval call ctx e
    let vs ← evalAll call ctx es
    return v :: vs

end

end Term

/-- Calls a function whose body nests calls at most `depth` deep. -/
def Closure.invoke : (depth : Nat) → Closure → List Value → EvalM Value
  | 0, _, _ => throw .tooDeep
  | depth + 1, f, vs => do
    let (locals, body) ← .ofExcept (f.enter vs)
    body.eval (invoke depth) ⟨locals, none⟩

/-- The value of a whole expression over its inputs, once it is checked. -/
def Term.evaluate (depth : Nat) (inputs : Inputs) (e : Expr) : EvalM Value := do
  match e.verify (← get).isCompiled [] true with
  | .error err => .fail (.misuse (.rejected err))
  | .ok () => e.eval (Closure.invoke depth) ⟨[], some inputs⟩

end ClosureConversion
