import ClosureConversion.Layout

/-!
Where a closure's captured values come from.

The carrier of a closure is built inside its parent, so each captured value is one of the parent's
own parameters, a slot of the parent's own carrier, or, at the top, an input of the whole expression.
-/

namespace ClosureConversion

/-- How a scope receives what it captures: the values of `env`, in carriers of this layout, through
its first parameter. -/
structure Carried where
  env : Env
  layout : Layout
  param : Param
deriving Inhabited

/-- Reads slot `index` of the environment. -/
def Carried.read (c : Carried) (index : Nat) : Except Breach Expr :=
  c.layout.access index (.loc c.param.id)

/-- The surroundings in which a closure is built. -/
inductive Frame where
  /-- The top of the expression, where the inputs are read directly. -/
  | root
  | scope (id : ScopeId) (params : List Param) (carried : Option Carried)

/-- Where the surroundings have a value. -/
inductive Origin where
  | direct (id : LocalId)
  | forwarded (index : Nat)
  | root
deriving DecidableEq

namespace Frame

def scopeId : Frame → ScopeId
  | .root => rootScope
  | .scope id _ _ => id

/-- Where the surroundings have the value of a slot, if they do. -/
def origin? (s : Slot) : Frame → Option Origin
  | .root =>
    match s.value with
    | .loc _ => none
    | _ => some .root
  | .scope id params carried =>
    if s.owner = id then
      match s.value with
      | .loc v => if v ∈ params.map Param.id then some (.direct v) else none
      | _ => none
    else (carried.bind (·.env.indexOf? s.value)).map .forwarded

/-- Origin of a slot of the scope `child`. -/
def origin (f : Frame) (child : ScopeId) (s : Slot) : Except Breach Origin :=
  match f.origin? s with
  | some o => .ok o
  | none => .error (.missingParentSlot child s.value)

def origins (f : Frame) (child : ScopeId) (env : Env) : Except Breach (List Origin) :=
  env.slots.mapM (f.origin child)

/-- The expression that has the slot's value in these surroundings. -/
def supply (f : Frame) (s : Slot) : Origin → Except Breach Expr
  | .direct id => .ok (.loc id)
  | .forwarded index =>
    match f with
    | .scope _ _ (some carried) => carried.read index
    | _ => .error (.slotOutOfRange index 0)
  | .root =>
    match s.value with
    | .args => .ok .args
    | .var name => .ok (.var name s.ty)
    | .loc _ => .error (.missingParentSlot f.scopeId s.value)

/-- The expressions for all slots of an environment, in its order. -/
def supplies (f : Frame) (child : ScopeId) (env : Env) : Except Breach (List Expr) := do
  let origins ← f.origins child env
  (env.slots.zip origins).mapM fun (s, o) => f.supply s o

end Frame

end ClosureConversion
