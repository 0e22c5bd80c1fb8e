import ClosureConversion.Frame
import Std.Data.TreeMap

/-!
Closed scopes and the table of them.

A scope that captures nothing is static; any other receives its environment in a carrier.  A scope
is dead when the body of its parent does not use it, and then all scopes within it are dead too:
`ScopeTable.retire`.
-/

namespace ClosureConversion

/-- A lambda whose body is complete. -/
structure Scope where
  id : ScopeId
  span : Span
  params : List Param
  body : Expr
  /-- How it receives its environment; nothing for a static scope. -/
  carried : Option Carried
  alive : Bool := true
  /-- Compile it to a function as soon as it needs nothing from outside. -/
  eager : Bool
  /-- Its function, if it was compiled on its own. -/
  compiled : Option Closure := none
  children : List ScopeId
deriving Inhabited

namespace Scope

def isStatic (s : Scope) : Bool := s.carried.isNone

def env? (s : Scope) : Option Env := s.carried.map Carried.env

/-- Parameters of the compiled code. -/
def signature (s : Scope) : List Param := (s.carried.map Carried.param).toList ++ s.params

/-- What the body of the parent writes for this scope. -/
def token (s : Scope) : Expr :=
  match s.compiled with
  | some f => .delegate s.id f
  | none => .placeholder s.id

/-- The surroundings that the scope is for the closures within. -/
def frame (s : Scope) : Frame := .scope s.id s.params s.carried

/-- Alive and still to be compiled. -/
def isPending (s : Scope) : Bool := s.alive && s.compiled.isNone

end Scope

abbrev ScopeTable := Std.TreeMap ScopeId Scope

namespace ScopeTable

/-- Scopes that are alive. -/
def living (t : ScopeTable) : List ScopeId :=
  t.toList.filterMap fun (id, s) => if s.alive then some id else none

def childrenOf (t : ScopeTable) (id : ScopeId) : List ScopeId := (t.get? id).elim [] Scope.children

/-- The scopes among `living` that a search from those on the stack meets.  Each is met once; the
search does not go beyond a scope that is not in `living`. -/
def reach (t : ScopeTable) (living : List ScopeId) : (stack : List ScopeId) → List ScopeId
  | [] => []
  | id :: stack =>
    if id ∈ living then id :: reach t (living.erase id) (t.childrenOf id ++ stack)
    else reach t living stack
termination_by stack => (living.length, stack.length)
decreasing_by
  · rename_i h
    have := List.length_erase_of_mem h
    have := List.length_pos_of_mem h
    exact Prod.Lex.left _ _ (by omega)
  · exact Prod.Lex.right _ (by simp)

/-- Marks a scope dead, together with every scope within it. -/
def retire (t : ScopeTable) (root : ScopeId) : ScopeTable :=
  let dead := t.reach t.living [root]
  t.map fun id s => if id ∈ dead then { s with alive := false } else s

end ScopeTable

end ClosureConversion
