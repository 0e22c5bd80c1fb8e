import ClosureConversion.Eval
import ClosureConversion.Proofs.Outcome

/-!
The direct reading of a scope tree: what its lambdas mean without being converted.

A function value is a lambda together with the values of the parameters around it.  A lambda that
captures nothing is one function, wherever it is met; any other is a new function each time it is
run, and the parameters that it captures must then have values of the types recorded for them.  In a
session these are the parameters free in the lambda, and their declared types
(`Session.lambda_isOk_iff`, in `ClosureConversion.Proofs.LexicalScoping`).  `Reading.invoke` runs
functions so, with the same operators and the same bound on the depth of calls as compiled code.

`Reading.plain` leaves the check of captured parameters out.  `Reading.observe_plain`: clients see the
same of both as long as they see no type error.
-/

namespace ClosureConversion

namespace Datum

variable {φ ψ : Type}

mutual

/-- The same data with other function values. -/
def map (f : φ → ψ) : Datum φ → Datum ψ
  | .void => .void
  | .bool b => .bool b
  | .int n => .int n
  | .number x => .number x
  | .string s => .string s
  | .array items => .array (mapAll f items)
  | .function g => .function (f g)
  | .carrier label shape fields => .carrier label shape (mapAll f fields)

def mapAll (f : φ → ψ) : List (Datum φ) → List (Datum ψ)
  | [] => []
  | v :: vs => map f v :: mapAll f vs

end

theorem mapAll_eq_map (f : φ → ψ) (vs : List (Datum φ)) : mapAll f vs = vs.map (map f) := by
  induction vs with
  | nil => rfl
  | cons v vs ih => simp [mapAll, ih]

/-- Data without functions, as data over any functions. -/
def lift : Datum Empty → Datum φ := map Empty.elim

end Datum

/-! ## Functions -/

/-- Which function a function value is. -/
inductive Identity where
  /-- The one function of a lambda that captures nothing. -/
  | shared (scope : ScopeId)
  /-- The function that was made when so many had been made. -/
  | fresh (n : Nat)
deriving DecidableEq

/-- A lambda with the values of the parameters around it. -/
inductive Lexical where
  | mk (identity : Identity) (scope : Scope) (around : List (LocalId × Datum Lexical))

namespace Lexical

def identity : Lexical → Identity
  | .mk identity _ _ => identity

def arity : Lexical → Nat
  | .mk _ scope _ => scope.params.length

instance : Callable Lexical := ⟨arity, fun f g => f.identity == g.identity⟩

end Lexical

/-- Inputs of a whole expression that hold no functions. -/
structure PlainInputs where
  arguments : List (Datum Empty) := []
  named : List (String × Datum Empty) := []

def PlainInputs.toInputs (inputs : PlainInputs) : Inputs where
  arguments := inputs.arguments.map Datum.lift
  named := inputs.named.map fun (name, v) => (name, v.lift)

/-- The state counts the functions that were made. -/
abbrev ReadM := ExceptT Halt (StateM Nat)

namespace ReadM

def fail {α : Type} (f : Fault) : ReadM α := throw (.fault f)

def ofExcept {α : Type} : Except Fault α → ReadM α
  | .ok a => pure a
  | .error f => fail f

def newIdentity : ReadM Identity := fun n => (.ok (.fresh n), n + 1)

end ReadM

/-! ## Captured parameters -/

/-- The order in which captured values are checked: in groups of seven, the last of up to eight, and
the last group first. -/
def checkOrder {α : Type} (xs : List α) : List α :=
  if xs.length ≤ Layout.maxFields then xs
  else checkOrder (xs.drop Layout.tailSlot) ++ xs.take Layout.tailSlot
termination_by xs.length
decreasing_by
  simp only [List.length_drop, Layout.tailSlot, Layout.maxFields] at *
  omega

/-- The value that a captured parameter has. -/
def Slot.param? (ρ : List (LocalId × Datum Lexical)) (x : Slot) : Option (Datum Lexical) :=
  match x.value with
  | .loc id => ρ.lookup id
  | _ => none

/-- The captured parameters have values of the types recorded for them. -/
def checkSlots (ρ : List (LocalId × Datum Lexical)) : List Slot → Except Fault Unit
  | [] => .ok ()
  | x :: xs =>
    match x.param? ρ with
    | some v => do
      let _ ← v.checked x.ty
      checkSlots ρ xs
    | none => checkSlots ρ xs

theorem checkSlots_eq_ok_iff {ρ : List (LocalId × Datum Lexical)} {xs : List Slot} :
    checkSlots ρ xs = .ok () ↔
      ∀ x ∈ xs, ∀ v, x.param? ρ = some v → v.conforms x.ty = true := by
  induction xs with
  | nil => simp [checkSlots]
  | cons x xs ih =>
    rw [List.forall_mem_cons, ← ih, checkSlots]
    cases hv : x.param? ρ with
    | none => simp
    | some v => by_cases hc : v.conforms x.ty = true <;> simp [Datum.checked, hc, bind, Except.bind]

/-! ## Running lambdas -/

structure Reading where
  table : ScopeTable
  inputs : PlainInputs
  /-- Captured parameters must have values of their types. -/
  strict : Bool := true

namespace Reading

/-- The reading that does not check captured parameters. -/
def plain (r : Reading) : Reading := { r with strict := false }

/-- The function that a lambda is where the parameters have these values. -/
def lambda (r : Reading) (ρ : List (LocalId × Datum Lexical)) (sc : Scope) : ReadM Lexical := do
  match sc.carried with
  | none => return .mk (.shared sc.id) sc []
  | some c =>
    if r.strict then .ofExcept (checkSlots ρ (checkOrder c.env.slots))
    return .mk (← ReadM.newIdentity) sc ρ

/-- The function that the token of a scope denotes. -/
def token (r : Reading) (ρ : List (LocalId × Datum Lexical)) (scope : ScopeId) :
    ReadM (Datum Lexical) :=
  match r.table.get? scope with
  | some sc => .function <$> r.lambda ρ sc
  | none => .fail (.misuse (.unsubstituted scope))

mutual

/-- The value of a body; the nodes that no front end writes have none. -/
def eval (r : Reading) (call : Lexical → List (Datum Lexical) → ReadM (Datum Lexical))
    (ρ : List (LocalId × Datum Lexical)) : Expr → ReadM (Datum Lexical)
  | .void => pure .void
  | .bool b => pure (.bool b)
  | .int n => pure (.int n)
  | .number x => pure (.number x)
  | .string s => pure (.string s)
  | .loc id =>
    match ρ.lookup id with
    | some v => pure v
    | none => .fail (.misuse (.unboundLocal id))
  | .args => pure (Datum.array r.inputs.arguments).lift
  | .arg vector index ty => do
    match ← eval r call ρ vector with
    | .array items =>
      match items[index]? with
      | some v => .ofExcept (v.checked ty)
      | none => .fail (.argumentIndex index items.length)
    | v => .fail (wrongType .argVector v)
  | .var name ty =>
    match r.inputs.named.lookup name with
    | some v => .ofExcept (v.lift.checked ty)
    | none => .fail (.unboundVariable name)
  | .binary op left right => do
    let v ← eval r call ρ left
    let w ← eval r call ρ right
    .ofExcept (op.apply v w)
  | .unary op operand => do
    .ofExcept (op.apply (← eval r call ρ operand))
  | .compare op left right => do
    let v ← eval r call ρ left
    let w ← eval r call ρ right
    return .bool (← .ofExcept (op.apply v w))
  | .logical op left right => do
    let b ← .ofExcept (← eval r call ρ left).toBool
    match op, b with
    | .and, false => return .bool false
    | .or, true => return .bool true
    | _, _ => return .bool (← .ofExcept (← eval r call ρ right).toBool)
  | .cond test yes no => do
    let b ← .ofExcept (← eval r call ρ test).toBool
    if b then eval r call ρ yes else eval r call ρ no
  | .call callee arguments => do
    match ← eval r call ρ callee with
    | .function f => call f (← evalAll r call ρ arguments)
    | v => .fail (.notCallable v.kind)
  | .placeholder scope => r.token ρ scope
  | .delegate scope _ => r.token ρ scope
  | .lambda .. | .newCarrier .. | .field .. | .bind .. => .fail (.misuse .noInputs)

def evalAll (r : Reading) (call : Lexical → List (Datum Lexical) → ReadM (Datum Lexical))
    (ρ : List (LocalId × Datum Lexical)) : List Expr → ReadM (List (Datum Lexical))
  | [] => pure []
  | e :: es => do
    let v ← eval r call ρ e
    let vs ← evalAll r call ρ es
    return v :: vs

end

/-- Calls a function whose body nests calls at most `depth` deep. -/
def invoke (r : Reading) : (depth : Nat) → Lexical → List (Datum Lexical) → ReadM (Datum Lexical)
  | 0, _, _ => throw .tooDeep
  | depth + 1, .mk _ sc ρ, vs =>
    if vs.length = sc.params.length then
      r.eval (r.invoke depth) ((sc.params.map Param.id).zip vs ++ ρ) sc.body
    else .fail (.argumentCount sc.params.length vs.length)

end Reading

/-! ## Clients -/

/-- A client applies one of the functions that it has to data. -/
structure Application where
  /-- Which function, in the order in which they were obtained. -/
  target : Nat
  arguments : List (Datum Empty)
  depth : Nat

section

variable {φ S : Type} [Callable φ]

/-- What a client that has these functions sees of a value: of a function, how many arguments it
takes, and which of those functions it is. -/
def Datum.view (known : List φ) (v : Datum φ) : Datum (Nat × Option Nat) :=
  v.map fun f => (Callable.arity f, known.findIdx? (Callable.same f))

/-- What a client sees that has these functions and applies them one after the other.  Each function
that it obtains it can apply later; what it asks of a function that it does not have is left out. -/
def play (invoke : Nat → φ → List (Datum φ) → ExceptT Halt (StateM S) (Datum φ)) :
    List Application → List φ → S → List (Except Halt (Datum (Nat × Option Nat)))
  | [], _, _ => []
  | a :: as, known, s =>
    match known[a.target]? with
    | none => play invoke as known s
    | some f =>
      let o := invoke a.depth f (a.arguments.map Datum.lift) s
      o.1.map (Datum.view known) ::
        play invoke as (known ++ (o.1.toOption.bind Datum.function?).toList) o.2

section

variable (invoke : Nat → φ → List (Datum φ) → ExceptT Halt (StateM S) (Datum φ))
  {a : Application} {known : List φ}

theorem play_of_none (h : known[a.target]? = none) (as : List Application) (s : S) :
    play invoke (a :: as) known s = play invoke as known s := by
  rw [play, h]

theorem play_of_some {f : φ} (h : known[a.target]? = some f) (as : List Application) {s s' : S}
    {r : Except Halt (Datum φ)} (hr : invoke a.depth f (a.arguments.map Datum.lift) s = (r, s')) :
    play invoke (a :: as) known s = r.map (Datum.view known) ::
      play invoke as (known ++ (r.toOption.bind Datum.function?).toList) s' := by
  rw [play, h]
  simp only [hr]

end

end

/-- What a client sees of the function that the scope `root` is with nothing around it. -/
def Reading.observe (r : Reading) (root : ScopeId) (script : List Application) :
    Option (List (Except Halt (Datum (Nat × Option Nat)))) :=
  match r.table.get? root with
  | none => none
  | some sc =>
    match r.lambda [] sc 0 with
    | (.ok f, n) => some (play r.invoke script [f] n)
    | (.error _, _) => none

/-! ## Leaving the check out -/

/-- A type error. -/
def Halt.isType : Halt → Bool
  | .fault (.type ..) => true
  | _ => false

/-- `y` does what `x` does, unless that ends in a type error. -/
def Relaxes {α : Type} (x y : ReadM α) : Prop :=
  ∀ n, (∀ h, (x n).1 = .error h → h.isType = false) → y n = x n

namespace Relaxes

variable {α β : Type} {x y : ReadM α} {f g : α → ReadM β}

theorem refl (x : ReadM α) : Relaxes x x := fun _ _ => rfl

theorem bind (h : Relaxes x y) (hf : ∀ a, Relaxes (f a) (g a)) : Relaxes (x >>= f) (y >>= g) := by
  intro n hn
  cases hx : x n with
  | mk q n' =>
    cases q with
    | error e =>
      rw [Outcome.bind_error hx] at hn ⊢
      refine Outcome.bind_error ((h n fun e' he => ?_).trans hx)
      rw [hx] at he
      cases he
      exact hn e rfl
    | ok a =>
      rw [Outcome.bind_ok hx] at hn ⊢
      rw [Outcome.bind_ok ((h n (by rw [hx]; exact nofun)).trans hx)]
      exact hf a n' hn

end Relaxes

namespace Reading

variable (r : Reading)

theorem isType_of_checkSlots {ρ : List (LocalId × Datum Lexical)} {xs : List Slot} {f : Fault}
    (h : checkSlots ρ xs = .error f) : Halt.isType (.fault f) = true := by
  induction xs with
  | nil => cases h
  | cons x xs ih =>
    unfold checkSlots at h
    split at h
    · next v _ =>
      unfold Datum.checked at h
      split at h
      · exact ih h
      · cases h
        rfl
    · exact ih h

theorem relaxes_lambda (ρ : List (LocalId × Datum Lexical)) (sc : Scope) :
    Relaxes (r.lambda ρ sc) (r.plain.lambda ρ sc) := by
  intro n hn
  unfold lambda at hn ⊢
  cases hc : sc.carried with
  | none => rfl
  | some c =>
    simp only [hc] at hn ⊢
    cases hs : r.strict with
    | false => rfl
    | true =>
      simp only [hs, if_true] at hn ⊢
      cases hk : checkSlots ρ (checkOrder c.env.slots) with
      | ok _ => rfl
      | error f =>
        rw [hk] at hn
        have := hn _ rfl
        rw [isType_of_checkSlots hk] at this
        cases this

theorem relaxes_token (ρ : List (LocalId × Datum Lexical)) (scope : ScopeId) :
    Relaxes (r.token ρ scope) (r.plain.token ρ scope) := by
  have htable : r.plain.table = r.table := rfl
  unfold token
  rw [htable]
  cases r.table.get? scope with
  | none => exact .refl _
  | some sc => exact (r.relaxes_lambda ρ sc).bind fun _ => .refl _

section

variable {call call' : Lexical → List (Datum Lexical) → ReadM (Datum Lexical)}

mutual

theorem relaxes_eval (hc : ∀ f vs, Relaxes (call f vs) (call' f vs))
    (ρ : List (LocalId × Datum Lexical)) : ∀ e : Expr, Relaxes (r.eval call ρ e) (r.plain.eval call' ρ e)
  | .void | .bool _ | .int _ | .number _ | .string _ => .refl _
  | .loc _ => .refl _
  | .args => .refl _
  | .arg vector _ _ => (relaxes_eval hc ρ vector).bind fun _ => .refl _
  | .var _ _ => .refl _
  | .binary _ left right =>
    (relaxes_eval hc ρ left).bind fun _ => (relaxes_eval hc ρ right).bind fun _ => .refl _
  | .unary _ operand => (relaxes_eval hc ρ operand).bind fun _ => .refl _
  | .compare _ left right =>
    (relaxes_eval hc ρ left).bind fun _ => (relaxes_eval hc ρ right).bind fun _ => .refl _
  | .logical op left right =>
    (relaxes_eval hc ρ left).bind fun _ => (Relaxes.refl _).bind fun b =>
      match op, b with
      | .and, false | .or, true => .refl _
      | .and, true | .or, false => (relaxes_eval hc ρ right).bind fun _ => .refl _
  | .cond test yes no =>
    (relaxes_eval hc ρ test).bind fun _ => (Relaxes.refl _).bind fun b =>
      match b with
      | true => relaxes_eval hc ρ yes
      | false => relaxes_eval hc ρ no
  | .call callee arguments => (relaxes_eval hc ρ callee).bind fun v =>
      match v with
      | .function f => (relaxes_evalAll hc ρ arguments).bind fun vs => hc f vs
      | .void | .bool _ | .int _ | .number _ | .string _ | .array _ | .carrier .. => .refl _
  | .placeholder scope => r.relaxes_token ρ scope
  | .delegate scope _ => r.relaxes_token ρ scope
  | .lambda .. | .newCarrier .. | .field .. | .bind .. => .refl _

theorem relaxes_evalAll (hc : ∀ f vs, Relaxes (call f vs) (call' f vs))
    (ρ : List (LocalId × Datum Lexical)) : ∀ es : List Expr,
    Relaxes (r.evalAll call ρ es) (r.plain.evalAll call' ρ es)
  | [] => .refl _
  | e :: es => (relaxes_eval hc ρ e).bind fun _ => (relaxes_evalAll hc ρ es).bind fun _ => .refl _

end

end

theorem relaxes_invoke (depth : Nat) (f : Lexical) (vs : List (Datum Lexical)) :
    Relaxes (r.invoke depth f vs) (r.plain.invoke depth f vs) := by
  induction depth generalizing f vs with
  | zero => exact .refl _
  | succ depth ih =>
    cases f with
    | mk i sc ρ =>
      unfold invoke
      split
      · exact r.relaxes_eval ih _ sc.body
      · exact .refl _

theorem play_plain (script : List Application) (known : List Lexical) (n : Nat)
    (h : ∀ o ∈ play r.invoke script known n, ∀ e, o = .error e → e.isType = false) :
    play r.plain.invoke script known n = play r.invoke script known n := by
  induction script generalizing known n with
  | nil => rfl
  | cons a as ih =>
    cases hf : known[a.target]? with
    | none =>
      rw [play_of_none _ hf] at h ⊢
      rw [play_of_none _ hf]
      exact ih known n h
    | some f =>
      cases hr : r.invoke a.depth f (a.arguments.map Datum.lift) n with
      | mk o n' =>
        rw [play_of_some _ hf as hr, List.forall_mem_cons] at h
        have hrelax := r.relaxes_invoke a.depth f (a.arguments.map Datum.lift) n fun e he =>
          h.1 e (by rw [hr] at he; rw [show o = .error e from he]; rfl)
        rw [play_of_some _ hf as hr, play_of_some _ hf as (hrelax.trans hr), ih _ _ h.2]

theorem observe_eq {root : ScopeId} {sc : Scope} {f : Lexical} {n : Nat}
    (hsc : r.table.get? root = some sc) (hf : r.lambda [] sc 0 = (.ok f, n))
    (script : List Application) : r.observe root script = some (play r.invoke script [f] n) := by
  unfold observe
  simp only [hsc, hf]

/-- A client that meets no type error sees the same without the check. -/
theorem observe_plain {root : ScopeId} {script : List Application}
    {os : List (Except Halt (Datum (Nat × Option Nat)))} (h : r.observe root script = some os)
    (hos : ∀ o ∈ os, ∀ e, o = .error e → e.isType = false) :
    r.plain.observe root script = some os := by
  unfold observe at h
  split at h
  · cases h
  · next sc hsc =>
    split at h
    · next f n hf =>
      obtain rfl := Option.some.inj h
      have hplain : r.plain.lambda [] sc 0 = (.ok f, n) :=
        (r.relaxes_lambda [] sc 0 (by rw [hf]; exact nofun)).trans hf
      rw [observe_eq r.plain hsc hplain, r.play_plain script [f] n hos]
    · cases h

end Reading

end ClosureConversion
