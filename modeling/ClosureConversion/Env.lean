import ClosureConversion.SortedSet
import ClosureConversion.Term

/-!
Captured environments: what a scope reads from outside itself.

An environment has one slot for each captured value, in the order in which the values were first
captured; that is the order in which a carrier stores them.  The argument vector is one slot,
whichever of its entries are read; the indices read, and the names of the variables read, are kept
beside the slots.
-/

namespace ClosureConversion

/-- A value that can cross the boundary of a lambda. -/
inductive Capture where
  /-- A parameter of an enclosing lambda. -/
  | loc (id : LocalId)
  | args
  | var (name : String)
deriving DecidableEq, Inhabited

def Capture.describe : Capture → String
  | .loc id => s!"local {id}"
  | .args => "the argument vector"
  | .var name => "variable `" ++ name ++ "`"

/-- The value that a node reads, if reading is all it does. -/
def Term.capture? {φ : Type} : Term φ → Option Capture
  | .loc id => some (.loc id)
  | .args => some .args
  | .var name _ => some (.var name)
  | _ => none

/-- Owner of the argument vector and of the variables. -/
def rootScope : ScopeId := 0

structure Slot where
  value : Capture
  ty : Ty
  /-- The scope that declares the value. -/
  owner : ScopeId
deriving DecidableEq, Inhabited

structure Env where
  slots : List Slot := []
  /-- Indices read from the argument vector, here or in a live scope within. -/
  indices : SortedSet Nat := .empty
  /-- Variables read, here or in a live scope within. -/
  names : SortedSet String := .empty
deriving DecidableEq, Inhabited

/-- One thing to capture. -/
inductive Request where
  | loc (id : LocalId) (ty : Ty) (owner : ScopeId)
  | argument (index : Nat)
  | var (name : String) (ty : Ty)
  /-- The slot as it is, with no note of an index or a name. -/
  | slot (s : Slot)
deriving DecidableEq

/-- The slot that a request asks for. -/
def Request.toSlot : Request → Slot
  | .loc id ty owner => ⟨.loc id, ty, owner⟩
  | .argument _ => ⟨.args, .argVector, rootScope⟩
  | .var name ty => ⟨.var name, ty, rootScope⟩
  | .slot s => s

namespace Env

def isEmpty (env : Env) : Bool := env.slots.isEmpty

/-- Position of a value in the carrier. -/
def indexOf? (env : Env) (v : Capture) : Option Nat := env.slots.findIdx? (·.value == v)

def slot? (env : Env) (v : Capture) : Option Slot := env.slots.find? (·.value == v)

def contains (env : Env) (v : Capture) : Bool := (env.indexOf? v).isSome

/-- Field types in the order of the carrier. -/
def types (env : Env) : List Ty := env.slots.map Slot.ty

/-- Adds a slot unless its value has one, and tells the value's position. -/
def place (env : Env) (s : Slot) : Env × Nat :=
  match env.indexOf? s.value with
  | some i => (env, i)
  | none => ({ env with slots := env.slots ++ [s] }, env.slots.length)

def insert (env : Env) (s : Slot) : Env := (env.place s).1

/-- Notes the index or the name that a request reads. -/
def note (env : Env) : Request → Env
  | .argument index => { env with indices := env.indices.insert index }
  | .var name _ => { env with names := env.names.insert name }
  | _ => env

def capture (env : Env) (r : Request) : Env × Nat := (env.note r).place r.toSlot

def request (env : Env) (r : Request) : Env := (env.capture r).1

def ofRequests (rs : List Request) : Env := rs.foldl request {}

/-- Takes over what a live child needs from further out: every slot that `scope` does not own, and
all that the child reads of the inputs. -/
def forward (env child : Env) (scope : ScopeId) : Env :=
  let slots := child.slots.filter (·.owner ≠ scope)
  { slots.foldl insert env with
    indices := env.indices.union child.indices
    names := env.names.union child.names }

/-- Every value and every argument index of `a` is also in `b`. -/
def isSubset (a b : Env) : Bool :=
  a.slots.all (b.contains ·.value) && a.indices.isSubset b.indices

end Env

end ClosureConversion
