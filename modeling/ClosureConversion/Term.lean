import ClosureConversion.Shape
import ClosureConversion.Source.Span

/-!
Expression trees.

`Term φ` is the tree over function values `φ`; `ClosureConversion.Closure` chooses `φ`.  A lambda
node carries a label: two nodes with one label are the same lambda, met in two places.

The ids of parameters and scopes are numbers without bound here.  A session hands them out from 32-bit
counters (`Session.execWord` in `ClosureConversion.Session.Command`).

* `Term.nodes t`: the nodes of `t` in pre-order.  The body of a lambda node is closed over its own
  parameters and is not entered.
* `Term.replaceM f t`: replaces nodes from the root down.  Where `f` answers `some r`, `r` takes the
  node's place and is not looked at again; where it answers `none`, the node is kept and its children
  are treated in the same way, left to right.  `f` may have any effect, failure included.
-/

namespace ClosureConversion

abbrev LocalId := Nat

abbrev ScopeId := Nat

/-- Identity of something that is allocated once: a lambda, a function or a carrier. -/
abbrev Label := Nat

/-- A declared parameter. -/
structure Param where
  id : LocalId
  name : String
  ty : Ty
  span : Span
deriving DecidableEq, Inhabited

inductive BinaryOp where
  | add | sub | mul | div | mod
deriving DecidableEq

inductive UnaryOp where
  | neg | not
deriving DecidableEq

inductive Comparison where
  | eq | ne | lt | le | gt | ge
deriving DecidableEq

inductive Connective where
  | and | or
deriving DecidableEq

inductive Term (φ : Type) where
  | void
  | bool (b : Bool)
  | int (n : Int64)
  | number (x : Float)
  | string (s : String)
  /-- A parameter, by its id. -/
  | loc (id : LocalId)
  /-- The argument vector of the whole expression. -/
  | args
  /-- One entry of an argument vector, expected to be of type `ty`. -/
  | arg (vector : Term φ) (index : Nat) (ty : Ty)
  /-- A variable that the caller of the whole expression supplies. -/
  | var (name : String) (ty : Ty)
  | binary (op : BinaryOp) (left right : Term φ)
  | unary (op : UnaryOp) (operand : Term φ)
  | compare (op : Comparison) (left right : Term φ)
  | logical (op : Connective) (left right : Term φ)
  | cond (test yes no : Term φ)
  | call (callee : Term φ) (arguments : List (Term φ))
  /-- Stands for the lambda of a scope until it is converted. -/
  | placeholder (scope : ScopeId)
  /-- The lambda of a scope that is already compiled. -/
  | delegate (scope : ScopeId) (f : φ)
  | lambda (label : Label) (params : List Param) (body : Term φ)
  | newCarrier (shape : Shape) (fields : List (Term φ))
  | field (carrier : Term φ) (shape : Shape) (slot : Nat)
  /-- Fixes the first argument of `f` to a carrier; `arity` parameters are left. -/
  | bind (carrier : Term φ) (f : φ) (arity : Nat)

namespace Term

variable {φ : Type}

instance : Inhabited (Term φ) := ⟨.void⟩

/-- The scope that a node stands for. -/
def scopeToken? : Term φ → Option ScopeId
  | .placeholder scope => some scope
  | .delegate scope _ => some scope
  | _ => none

/-! ## Nodes -/

mutual

/-- The nodes in pre-order, lambda bodies excluded. -/
def nodes : Term φ → List (Term φ)
  | t@(.arg v _ _) => t :: v.nodes
  | t@(.binary _ l r) => t :: (l.nodes ++ r.nodes)
  | t@(.unary _ e) => t :: e.nodes
  | t@(.compare _ l r) => t :: (l.nodes ++ r.nodes)
  | t@(.logical _ l r) => t :: (l.nodes ++ r.nodes)
  | t@(.cond c y n) => t :: (c.nodes ++ y.nodes ++ n.nodes)
  | t@(.call f as) => t :: (f.nodes ++ nodesAll as)
  | t@(.newCarrier _ fs) => t :: nodesAll fs
  | t@(.field c _ _) => t :: c.nodes
  | t@(.bind c _ _) => t :: c.nodes
  | t => [t]

def nodesAll : List (Term φ) → List (Term φ)
  | [] => []
  | t :: ts => t.nodes ++ nodesAll ts

end

theorem nodesAll_eq_flatMap (ts : List (Term φ)) : nodesAll ts = ts.flatMap nodes := by
  induction ts with
  | nil => rfl
  | cons t ts ih => simp [nodesAll, ih]

theorem self_mem_nodes (t : Term φ) : t ∈ t.nodes := by
  cases t <;> simp [nodes]

/-- Whether some node satisfies `p`; nodes after the first that does are not tried. -/
def anyM {m : Type → Type} [Monad m] (p : Term φ → m Bool) (t : Term φ) : m Bool :=
  t.nodes.anyM p

/-! ## Replacement -/

section

variable {m : Type → Type} [Monad m]

mutual

def replaceM (f : Term φ → m (Option (Term φ))) (t : Term φ) : m (Term φ) := do
  match ← f t with
  | some r => pure r
  | none =>
    match t with
    | .arg v i ty => return .arg (← v.replaceM f) i ty
    | .binary op l r => return .binary op (← l.replaceM f) (← r.replaceM f)
    | .unary op e => return .unary op (← e.replaceM f)
    | .compare op l r => return .compare op (← l.replaceM f) (← r.replaceM f)
    | .logical op l r => return .logical op (← l.replaceM f) (← r.replaceM f)
    | .cond c y n => return .cond (← c.replaceM f) (← y.replaceM f) (← n.replaceM f)
    | .call g as => return .call (← g.replaceM f) (← replaceAllM f as)
    | .newCarrier s fs => return .newCarrier s (← replaceAllM f fs)
    | .field c s i => return .field (← c.replaceM f) s i
    | .bind c g n => return .bind (← c.replaceM f) g n
    | leaf => pure leaf

def replaceAllM (f : Term φ → m (Option (Term φ))) : List (Term φ) → m (List (Term φ))
  | [] => pure []
  | t :: ts => return (← t.replaceM f) :: (← replaceAllM f ts)

end

end

end Term

end ClosureConversion
