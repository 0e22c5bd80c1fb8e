import ClosureConversion.Eval
import ClosureConversion.Proofs.Operators
import ClosureConversion.Proofs.Outcome
import ClosureConversion.Proofs.Tree
import Mathlib.Data.List.Forall2

/-!
Two runs side by side.

A `Coupling` says how two runs of code hang together: which values of the one correspond to which of
the other, in worlds that grow as the runs go on, and which stores a world ties.  Values that
correspond look the same to the operators.  `Coupled` says that two runs end alike: with
corresponding results, or with the same failure, in stores that a later world ties.

`Together e`: wherever `e` may run, its two runs are coupled.  One lemma for each form of code whose
meaning is that of the operators or of its parts says that it runs together if its parts do; what a
read of the surroundings or a new object is, depends on the coupling.
-/

namespace ClosureConversion

structure Coupling where
  World : Type
  /-- The second world is later. -/
  le : World → World → Prop
  refl : ∀ W, le W W
  trans : ∀ {W₁ W₂ W₃}, le W₁ W₂ → le W₂ W₃ → le W₁ W₃
  /-- The stores of the two runs. -/
  ties : World → Store → Store → Prop
  /-- The values of the two runs. -/
  values : World → Value → Value → Prop
  mono : ∀ {W W' v w}, le W W' → values W v w → values W' v w
  scalar : ∀ W (d : Datum Empty), d.isCompound = false → values W d.lift d.lift
  akin : ∀ {W v w}, values W v w → Akin v w
  conforms : ∀ {W v w}, values W v w → ∀ ty, v.conforms ty = w.conforms ty
  same : ∀ {W σ τ v w v' w'}, ties W σ τ → values W v w → values W v' w' → v.same v' = w.same w'

theorem Coupling.checked (C : Coupling) {W : C.World} {v w : Value} (h : C.values W v w) (ty : Ty) :
    Alike (C.values W) (v.checked ty) (w.checked ty) :=
  (C.akin h).checked h (C.conforms h ty)

/-- Both runs succeed with corresponding results, or fail in the same way. -/
inductive Coupled {α β : Type} (C : Coupling) (R : C.World → α → β → Prop) (W : C.World) :
    Except Halt α × Store → Except Halt β × Store → Prop
  | ok {W' : C.World} {a : α} {b : β} {σ τ : Store} :
      C.le W W' → C.ties W' σ τ → R W' a b → Coupled C R W (.ok a, σ) (.ok b, τ)
  | error {W' : C.World} {h : Halt} {σ τ : Store} :
      C.le W W' → C.ties W' σ τ → Coupled C R W (.error h, σ) (.error h, τ)

namespace Coupled

variable {α β γ δ : Type} {C : Coupling} {R : C.World → α → β → Prop} {Q : C.World → γ → δ → Prop}
  {W W' : C.World} {σ τ : Store}

theorem of_le {x : Except Halt α × Store} {y : Except Halt β × Store} (hW : C.le W W')
    (h : Coupled C R W' x y) : Coupled C R W x y := by
  cases h with
  | ok hs ht hr => exact .ok (C.trans hW hs) ht hr
  | error hs ht => exact .error (C.trans hW hs) ht

theorem bind {x : EvalM α} {y : EvalM β} {f : α → EvalM γ} {g : β → EvalM δ}
    (h : Coupled C R W (x σ) (y τ))
    (hf : ∀ W' a b σ' τ', C.le W W' → C.ties W' σ' τ' → R W' a b →
      Coupled C Q W' (f a σ') (g b τ')) :
    Coupled C Q W ((x >>= f) σ) ((y >>= g) τ) := by
  generalize hx : x σ = o, hy : y τ = p at h
  cases h with
  | error hs ht =>
    rw [Outcome.bind_error hx, Outcome.bind_error hy]
    exact .error hs ht
  | ok hs ht hr =>
    rw [Outcome.bind_ok hx, Outcome.bind_ok hy]
    exact (hf _ _ _ _ _ hs ht hr).of_le hs

theorem pure {a : α} {b : β} (ht : C.ties W σ τ) (h : R W a b) :
    Coupled C R W ((Pure.pure a : EvalM α) σ) ((Pure.pure b : EvalM β) τ) :=
  .ok (C.refl W) ht h

theorem fail (f : Fault) (ht : C.ties W σ τ) :
    Coupled C R W ((EvalM.fail f : EvalM α) σ) ((EvalM.fail f : EvalM β) τ) :=
  .error (C.refl W) ht

theorem ofExcept {r : Except Fault α} {r' : Except Fault β} (ht : C.ties W σ τ)
    (h : Alike (R W) r r') : Coupled C R W (EvalM.ofExcept r σ) (EvalM.ofExcept r' τ) := by
  cases h with
  | ok h => exact .pure ht h
  | error f => exact .fail f ht

/-- The same result on both sides. -/
theorem same (r : Except Fault α) (ht : C.ties W σ τ) :
    Coupled C (fun _ => Eq) W (EvalM.ofExcept r σ) (EvalM.ofExcept r τ) := by
  cases r with
  | ok a => exact .pure ht rfl
  | error f => exact .fail f ht

/-- A scalar that both sides compute. -/
theorem scalar {r : Except Fault (Datum Empty)} (hr : ∀ d, r = .ok d → d.isCompound = false)
    {x y : Except Fault Value} (hx : x = r.map Datum.lift) (hy : y = r.map Datum.lift)
    (ht : C.ties W σ τ) : Coupled C C.values W (EvalM.ofExcept x σ) (EvalM.ofExcept y τ) := by
  subst hx hy
  cases r with
  | ok d => exact .pure ht (C.scalar W d (hr d rfl))
  | error f => exact .fail f ht

theorem bool (b : Bool) (ht : C.ties W σ τ) :
    Coupled C C.values W ((Pure.pure (.bool b) : EvalM Value) σ)
      ((Pure.pure (.bool b) : EvalM Value) τ) :=
  .pure ht (C.scalar W (.bool b) rfl)

end Coupled

/-! ## Code that runs together -/

/-- Calls of corresponding functions on corresponding values are coupled. -/
def CoupledCalls (C : Coupling) (call call' : Closure → List Value → EvalM Value) : Prop :=
  ∀ W f g vs ws σ τ, C.values W (.function f) (.function g) → List.Forall₂ (C.values W) vs ws →
    C.ties W σ τ → Coupled C C.values W (call f vs σ) (call' g ws τ)

/-- In the worlds where `A` holds, the two runs are coupled. -/
def Apace (C : Coupling) (A : C.World → Prop) (x y : EvalM Value) : Prop :=
  ∀ W σ τ, A W → C.ties W σ τ → Coupled C C.values W (x σ) (y τ)

namespace Apace

variable {C : Coupling} {A B : C.World → Prop} {x y : EvalM Value}

theorem imp (h : Apace C A x y) (hB : ∀ W, B W → A W) : Apace C B x y :=
  fun W σ τ hb ht => h W σ τ (hB W hb) ht

theorem literal {d : Datum Empty} (hd : d.isCompound = false) :
    Apace C A (Pure.pure d.lift) (Pure.pure d.lift) :=
  fun W _ _ _ ht => .pure ht (C.scalar W d hd)

section

variable {call call' : Closure → List Value → EvalM Value} {ctx ctx' : Context}
  {l l' r r' c c' yes yes' no no' e e' : Expr}
  (hA : ∀ {W W' : C.World}, C.le W W' → A W → A W')

include hA

/-- The two runs come first. -/
theorem first {α β : Type} {Q : C.World → α → β → Prop} (h : Apace C A x y) {W : C.World}
    {σ τ : Store} (ha : A W) (ht : C.ties W σ τ) {f : Value → EvalM α} {g : Value → EvalM β}
    (hf : ∀ W' v w σ' τ', A W' → C.ties W' σ' τ' → C.values W' v w →
      Coupled C Q W' (f v σ') (g w τ')) :
    Coupled C Q W ((x >>= f) σ) ((y >>= g) τ) :=
  (h W σ τ ha ht).bind fun W' v w σ' τ' hW ht' hv => hf W' v w σ' τ' (hA hW ha) ht' hv

theorem binary (hl : Apace C A (l.eval call ctx) (l'.eval call' ctx'))
    (hr : Apace C A (r.eval call ctx) (r'.eval call' ctx')) (op : BinaryOp) :
    Apace C A ((Term.binary op l r).eval call ctx) ((Term.binary op l' r').eval call' ctx') := by
  intro W σ τ ha ht
  unfold Term.eval
  refine hl.first hA ha ht fun W₁ v w σ₁ τ₁ ha₁ ht₁ hv => ?_
  refine (hr W₁ σ₁ τ₁ ha₁ ht₁).bind fun W₂ v' w' σ₂ τ₂ hW₂ ht₂ hv' => ?_
  obtain ⟨x, hx, e, e'⟩ := (C.akin (C.mono hW₂ hv)).binary (C.akin hv') op
  exact .scalar hx e e' ht₂

theorem unary (he : Apace C A (e.eval call ctx) (e'.eval call' ctx')) (op : UnaryOp) :
    Apace C A ((Term.unary op e).eval call ctx) ((Term.unary op e').eval call' ctx') := by
  intro W σ τ ha ht
  unfold Term.eval
  refine he.first hA ha ht fun W₁ v w σ₁ τ₁ _ ht₁ hv => ?_
  obtain ⟨x, hx, e, e'⟩ := (C.akin hv).unary op
  exact .scalar hx e e' ht₁

theorem compare (hl : Apace C A (l.eval call ctx) (l'.eval call' ctx'))
    (hr : Apace C A (r.eval call ctx) (r'.eval call' ctx')) (op : Comparison) :
    Apace C A ((Term.compare op l r).eval call ctx) ((Term.compare op l' r').eval call' ctx') := by
  intro W σ τ ha ht
  unfold Term.eval
  refine hl.first hA ha ht fun W₁ v w σ₁ τ₁ ha₁ ht₁ hv => ?_
  refine (hr W₁ σ₁ τ₁ ha₁ ht₁).bind fun W₂ v' w' σ₂ τ₂ hW₂ ht₂ hv' => ?_
  have hv := C.mono hW₂ hv
  rw [(C.akin hv).compare_eq (C.akin hv') (C.same ht₂ hv hv') op]
  exact (Coupled.same _ ht₂).bind fun W₃ b _ σ₃ τ₃ _ ht₃ e => e ▸ .bool b ht₃

theorem logical (hl : Apace C A (l.eval call ctx) (l'.eval call' ctx'))
    (hr : Apace C A (r.eval call ctx) (r'.eval call' ctx')) (op : Connective) :
    Apace C A ((Term.logical op l r).eval call ctx) ((Term.logical op l' r').eval call' ctx') := by
  intro W σ τ ha ht
  unfold Term.eval
  refine hl.first hA ha ht fun W₁ v w σ₁ τ₁ ha₁ ht₁ hv => ?_
  rw [(C.akin hv).toBool_eq]
  refine (Coupled.same _ ht₁).bind fun W₂ b _ σ₂ τ₂ hW₂ ht₂ e => ?_
  subst e
  have hright : Coupled C C.values W₂
      ((do return .bool (← .ofExcept (← r.eval call ctx).toBool) : EvalM Value) σ₂)
      ((do return .bool (← .ofExcept (← r'.eval call' ctx').toBool) : EvalM Value) τ₂) := by
    refine hr.first hA (hA hW₂ ha₁) ht₂ fun W₃ v w σ₃ τ₃ _ ht₃ hv => ?_
    rw [(C.akin hv).toBool_eq]
    exact (Coupled.same _ ht₃).bind fun W₄ b _ σ₄ τ₄ _ ht₄ e => e ▸ .bool b ht₄
  cases op <;> cases b
  · exact .bool false ht₂
  · exact hright
  · exact hright
  · exact .bool true ht₂

theorem cond (hc : Apace C A (c.eval call ctx) (c'.eval call' ctx'))
    (hy : Apace C A (yes.eval call ctx) (yes'.eval call' ctx'))
    (hn : Apace C A (no.eval call ctx) (no'.eval call' ctx')) :
    Apace C A ((Term.cond c yes no).eval call ctx) ((Term.cond c' yes' no').eval call' ctx') := by
  intro W σ τ ha ht
  unfold Term.eval
  refine hc.first hA ha ht fun W₁ v w σ₁ τ₁ ha₁ ht₁ hv => ?_
  rw [(C.akin hv).toBool_eq]
  refine (Coupled.same _ ht₁).bind fun W₂ b _ σ₂ τ₂ hW₂ ht₂ e => ?_
  subst e
  cases b with
  | true => exact hy W₂ σ₂ τ₂ (hA hW₂ ha₁) ht₂
  | false => exact hn W₂ σ₂ τ₂ (hA hW₂ ha₁) ht₂

theorem evalAll {es es' : List Expr}
    (h : List.Forall₂ (fun e e' => Apace C A (e.eval call ctx) (e'.eval call' ctx')) es es')
    {W : C.World} {σ τ : Store} (ha : A W) (ht : C.ties W σ τ) :
    Coupled C (fun W => List.Forall₂ (C.values W)) W (Term.evalAll call ctx es σ)
      (Term.evalAll call' ctx' es' τ) := by
  induction h generalizing W σ τ with
  | nil => exact .pure ht .nil
  | cons he _ ih =>
    unfold Term.evalAll
    refine he.first hA ha ht fun W₁ v w σ₁ τ₁ ha₁ ht₁ hv => ?_
    refine (ih ha₁ ht₁).bind fun W₂ vs ws σ₂ τ₂ hW₂ ht₂ hvs => ?_
    exact .pure ht₂ (.cons (C.mono hW₂ hv) hvs)

theorem invoke (hcall : CoupledCalls C call call') {as as' : List Expr}
    (hc : Apace C A (c.eval call ctx) (c'.eval call' ctx'))
    (has : List.Forall₂ (fun a a' => Apace C A (a.eval call ctx) (a'.eval call' ctx')) as as') :
    Apace C A ((Term.call c as).eval call ctx) ((Term.call c' as').eval call' ctx') := by
  intro W σ τ ha ht
  unfold Term.eval
  refine hc.first hA ha ht fun W₁ v w σ₁ τ₁ ha₁ ht₁ hv => ?_
  have hkind := (C.akin hv).kind_eq
  cases v with
  | function f =>
    cases w with
    | function g =>
      refine (evalAll hA has ha₁ ht₁).bind fun W₂ vs ws σ₂ τ₂ hW₂ ht₂ hvs => ?_
      exact hcall W₂ f g vs ws σ₂ τ₂ (C.mono hW₂ hv) hvs ht₂
    | _ => cases hkind
  | _ =>
    cases w with
    | function g => cases hkind
    | _ => first | exact .fail _ ht₁ | cases hkind

end

end Apace

/-- Where code may run in both contexts. -/
structure Surroundings (C : Coupling) where
  call : Closure → List Value → EvalM Value
  call' : Closure → List Value → EvalM Value
  ctx : Context
  ctx' : Context
  /-- The code may run in this world. -/
  admits : Expr → C.World → Prop
  mono : ∀ {e W W'}, C.le W W' → admits e W → admits e W'
  child : ∀ {e c W}, c ∈ e.children → admits e W → admits c W
  calls : CoupledCalls C call call'

def Together {C : Coupling} (S : Surroundings C) (e : Expr) : Prop :=
  ∀ W σ τ, S.admits e W → C.ties W σ τ →
    Coupled C C.values W (e.eval S.call S.ctx σ) (e.eval S.call' S.ctx' τ)

namespace Together

variable {C : Coupling} {S : Surroundings C} {l r c y n e : Expr}

/-- A subtree runs where the whole may run. -/
theorem within (hc : Together S c) (hmem : c ∈ e.children) :
    Apace C (S.admits e) (c.eval S.call S.ctx) (c.eval S.call' S.ctx') :=
  Apace.imp hc fun _ => S.child hmem

/-- A subtree runs first. -/
theorem first {α β : Type} {Q : C.World → α → β → Prop} (hc : Together S c) {W : C.World}
    {σ τ : Store} (ha : S.admits e W) (hmem : c ∈ e.children) (ht : C.ties W σ τ)
    {f : Value → EvalM α} {g : Value → EvalM β}
    (hf : ∀ W' v w σ' τ', S.admits e W' → C.ties W' σ' τ' → C.values W' v w →
      Coupled C Q W' (f v σ') (g w τ')) :
    Coupled C Q W ((c.eval S.call S.ctx >>= f) σ) ((c.eval S.call' S.ctx' >>= g) τ) :=
  (hc.within hmem).first S.mono ha ht hf

theorem literal (hp : ∃ d : Datum Empty, d.isCompound = false ∧
    ∀ call ctx, e.eval call ctx = (Pure.pure d.lift : EvalM Value)) : Together S e := by
  intro W σ τ ha ht
  obtain ⟨d, hd, he⟩ := hp
  rw [he, he]
  exact Apace.literal hd W σ τ ha ht

theorem binary (hl : Together S l) (hr : Together S r) (op : BinaryOp) :
    Together S (.binary op l r) :=
  Apace.binary S.mono (hl.within (by simp [Term.children])) (hr.within (by simp [Term.children])) op

theorem unary (he : Together S e) (op : UnaryOp) : Together S (.unary op e) :=
  Apace.unary S.mono (he.within (by simp [Term.children])) op

theorem compare (hl : Together S l) (hr : Together S r) (op : Comparison) :
    Together S (.compare op l r) :=
  Apace.compare S.mono (hl.within (by simp [Term.children])) (hr.within (by simp [Term.children])) op

theorem logical (hl : Together S l) (hr : Together S r) (op : Connective) :
    Together S (.logical op l r) :=
  Apace.logical S.mono (hl.within (by simp [Term.children])) (hr.within (by simp [Term.children])) op

theorem cond (hc : Together S c) (hy : Together S y) (hn : Together S n) :
    Together S (.cond c y n) :=
  Apace.cond S.mono (hc.within (by simp [Term.children])) (hy.within (by simp [Term.children]))
    (hn.within (by simp [Term.children]))

/-- Subtrees run one after the other. -/
theorem evalAll {es : List Expr} (h : ∀ c ∈ es, Together S c) (hmem : ∀ c ∈ es, c ∈ e.children)
    {W : C.World} {σ τ : Store} (ha : S.admits e W) (ht : C.ties W σ τ) :
    Coupled C (fun W => List.Forall₂ (C.values W)) W (Term.evalAll S.call S.ctx es σ)
      (Term.evalAll S.call' S.ctx' es τ) :=
  Apace.evalAll S.mono (List.forall₂_same.mpr fun c hc => (h c hc).within (hmem c hc)) ha ht

theorem call {callee : Expr} {as : List Expr} (hc : Together S callee)
    (has : ∀ a ∈ as, Together S a) : Together S (.call callee as) :=
  Apace.invoke S.mono S.calls (hc.within List.mem_cons_self)
    (List.forall₂_same.mpr fun a ha => (has a ha).within (List.mem_cons_of_mem callee ha))

end Together

end ClosureConversion
