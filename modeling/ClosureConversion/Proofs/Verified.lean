import ClosureConversion.Proofs.Process
import ClosureConversion.Proofs.Translation

/-!
Verified code is never misused.

`Term.verify` looks at code once, before it runs, and does not enter function values; what runs later
are the bodies of functions that were made at other times, and lambdas that are compiled on the way.
`Closure.Sound known` is what holds of all function values meanwhile: all code inside them is
verified, where the lambdas in `known` count as compiled.  It is kept when more lambdas are compiled,
and every evaluation of verified code keeps it: `safe_eval`, `safe_invoke`.

`no_misuse`: a function that a client has made never ends in a misuse, and an expression does exactly
if it does not pass the check.
-/

namespace ClosureConversion

/-! ## Verification -/

namespace Term

variable {known known' : Label → Bool} {bound : List LocalId} {root : Bool}

/-- What verification asks of a node, apart from its subtrees. -/
def Admitted (known : Label → Bool) (bound : List LocalId) (root : Bool) : Expr → Prop
  | .loc id => id ∈ bound
  | .args => root = true
  | .var _ _ => root = true
  | .placeholder _ => False
  | .lambda label params body => known label = true ∨ params.length ≤ Closure.maxArity ∧
      body.verify known (params.map Param.id) false = .ok ()
  | .newCarrier shape fields => shape.arity = fields.length
  | .field _ shape slot => slot < shape.arity
  | .bind _ f arity => arity ≤ Closure.maxBoundArity ∧ f.arity = arity + 1
  | _ => True

theorem ite_eq_ok {p : Prop} [Decidable p] {x : Except CodeError Unit} {e : CodeError} :
    (if p then x else .error e) = .ok () ↔ p ∧ x = .ok () := by
  by_cases h : p <;> simp [h]

/-- Verification looks at every node. -/
theorem verify_eq_ok (e : Expr) :
    e.verify known bound root = .ok () ↔
      e.Admitted known bound root ∧ ∀ c ∈ e.children, c.verify known bound root = .ok () := by
  cases e with
  | lambda label params body =>
    by_cases h : known label = true
    · simp [verify, Admitted, children, h]
    · simp [verify, Admitted, children, h, ite_eq_ok]
  | _ =>
    simp [verify, Admitted, children, seq_eq_ok, verifyAll_eq_ok, ite_eq_ok]

theorem verify_mono (hk : ∀ l, known l = true → known' l = true) (e : Expr) :
    ∀ bound root, e.verify known bound root = .ok () → e.verify known' bound root = .ok () := by
  induction e using partInduction with
  | step e ih =>
    intro bound root h
    rw [verify_eq_ok] at h ⊢
    refine ⟨?_, fun c hc => ih c (mem_parts_of_mem_children hc) _ _ (h.2 c hc)⟩
    cases e with
    | lambda label params body =>
      rcases h.1 with h | ⟨hp, h⟩
      · exact .inl (hk label h)
      · exact .inr ⟨hp, ih body List.mem_cons_self _ _ h⟩
    | _ => exact h.1

end Term

/-! ## Sound functions -/

/-- All code of the function is verified, that of the functions it holds included. -/
inductive Closure.Sound (known : Label → Bool) : Closure → Prop
  | code {label : Label} {params : List LocalId} {body : Expr} :
      body.verify known params false = .ok () → (∀ f ∈ body.functions, Sound known f) →
      Sound known (.code label params body)
  | bound {label : Label} {arity : Nat} {first : Value} {raw : Closure} :
      (∀ f ∈ first.functions, Sound known f) → Sound known raw →
      Sound known (.bound label arity first raw)

def Datum.Sound (known : Label → Bool) (v : Value) : Prop := ∀ f ∈ v.functions, f.Sound known

theorem Closure.Sound.mono {known known' : Label → Bool}
    (hk : ∀ l, known l = true → known' l = true) {f : Closure} (h : f.Sound known) :
    f.Sound known' := by
  induction h with
  | code hv _ ih => exact .code (Term.verify_mono hk _ _ _ hv) ih
  | bound _ _ ih ihr => exact .bound ih ihr

namespace Store

/-- The functions of all compiled lambdas are sound. -/
def Sound (σ : Store) : Prop := ∀ l f, σ.function? l = some f → f.Sound σ.isCompiled

/-- The later store has all functions of the earlier one. -/
structure Keeps (σ σ' : Store) : Prop where
  next : σ.nextLabel ≤ σ'.nextLabel
  function? : ∀ l f, σ.function? l = some f → σ'.function? l = some f

namespace Keeps

variable {σ σ' σ'' : Store}

theorem refl (σ : Store) : σ.Keeps σ := ⟨Nat.le_refl _, fun _ _ h => h⟩

theorem trans (h : σ.Keeps σ') (k : σ'.Keeps σ'') : σ.Keeps σ'' :=
  ⟨Nat.le_trans h.next k.next, fun l f e => k.function? l f (h.function? l f e)⟩

theorem isCompiled (h : σ.Keeps σ') (l : Label) (hl : σ.isCompiled l = true) :
    σ'.isCompiled l = true := by
  obtain ⟨f, hf⟩ := Option.isSome_iff_exists.mp hl
  exact Option.isSome_iff_exists.mpr ⟨f, h.function? l f hf⟩

theorem of_functions (hn : σ.nextLabel ≤ σ'.nextLabel) (hf : σ'.functions = σ.functions) :
    σ.Keeps σ' := by
  refine ⟨hn, fun l f h => ?_⟩
  rw [Store.function?, hf]
  exact h

theorem newLabel (σ : Store) : σ.Keeps { σ with nextLabel := σ.nextLabel + 1 } :=
  of_functions (Nat.le_succ _) rfl

theorem record {l : Lambda} (h : σ.function? l.label = none) : σ.Keeps (σ.record l) := by
  refine ⟨Nat.le_succ _, fun k f hk => ?_⟩
  rw [function?_record, if_neg]
  · exact hk
  · rintro rfl
    rw [h] at hk
    cases hk

end Keeps

theorem Sound.of_functions {σ σ' : Store} (h : σ.Sound) (hf : σ'.functions = σ.functions) :
    σ'.Sound := by
  unfold Sound isCompiled function? at h ⊢
  rw [hf]
  exact h

/-- A verified lambda adds a sound function. -/
theorem Sound.record {σ : Store} (h : σ.Sound) {l : Lambda} (hn : σ.function? l.label = none)
    (hv : l.verify σ.isCompiled = .ok ()) (hf : ∀ f ∈ l.body.functions, f.Sound σ.isCompiled) :
    (σ.record l).Sound ∧ (l.closure σ.nextLabel).Sound (σ.record l).isCompiled := by
  have hk := (Keeps.record hn).isCompiled
  have hbody := (Term.ite_eq_ok.mp hv).2
  have hnew : (l.closure σ.nextLabel).Sound (σ.record l).isCompiled :=
    .code (Term.verify_mono hk _ _ _ hbody) fun f hmem => (hf f hmem).mono hk
  refine ⟨fun k f hfun => ?_, hnew⟩
  rw [function?_record] at hfun
  split at hfun
  · obtain rfl := Option.some.inj hfun
    exact hnew
  · exact (h k f hfun).mono hk

/-- Compiling adds a sound function, if any. -/
theorem Sound.compile {σ σ' : Store} (h : σ.Sound) {l : Lambda} {f : Closure}
    (hf : ∀ f ∈ l.body.functions, f.Sound σ.isCompiled) (hc : l.compile σ = (.ok f, σ')) :
    σ.Keeps σ' ∧ σ'.Sound ∧ f.Sound σ'.isCompiled := by
  rcases l.compile_cases σ with ⟨g, hl, hr⟩ | ⟨hn, ⟨err, -, hr⟩ | ⟨hv, hr⟩⟩
  · cases hc.symm.trans hr
    exact ⟨.refl σ, h, h l.label f hl⟩
  · cases hc.symm.trans hr
  · cases hc.symm.trans hr
    exact ⟨.record hn, h.record hn hv hf⟩

end Store

/-! ## Outcomes -/

/-- The operation does not end in a misuse, and its result satisfies `P`. -/
structure Proper {α : Type} (P : α → Prop) (r : Except Fault α) : Prop where
  value : ∀ a, r = .ok a → P a
  fault : ∀ m, r ≠ .error (.misuse m)

namespace Proper

variable {α β : Type} {P : α → Prop} {Q : β → Prop}

theorem ok {a : α} (h : P a) : Proper P (.ok a) :=
  ⟨fun _ e => by cases e; exact h, nofun⟩

theorem error {f : Fault} (h : ∀ m, f ≠ .misuse m) : Proper P (.error f) :=
  ⟨nofun, fun m e => h m (by cases e; rfl)⟩

theorem bind {r : Except Fault α} {f : α → Except Fault β} (h : Proper P r)
    (hf : ∀ a, P a → Proper Q (f a)) : Proper Q (r >>= f) := by
  cases r with
  | error e => exact error fun m he => h.fault m (by rw [he])
  | ok a => exact hf a (h.value a rfl)

end Proper

/-- The run does not end in a misuse, its result satisfies `P`, and it leaves a sound store. -/
structure Safe {α : Type} (P : (Label → Bool) → α → Prop) (σ : Store) (o : Except Halt α × Store) :
    Prop where
  keeps : σ.Keeps o.2
  sound : o.2.Sound
  value : ∀ a, o.1 = .ok a → P o.2.isCompiled a
  fault : ∀ m, o.1 ≠ .error (.fault (.misuse m))

namespace Safe

variable {α β : Type} {P : (Label → Bool) → α → Prop} {Q : (Label → Bool) → β → Prop} {σ σ' : Store}

theorem bind {x : EvalM α} {f : α → EvalM β} (h : Safe P σ (x σ))
    (hf : ∀ a σ', σ.Keeps σ' → σ'.Sound → P σ'.isCompiled a → Safe Q σ' (f a σ')) :
    Safe Q σ ((x >>= f) σ) := by
  cases hx : x σ with
  | mk r σ' =>
    rw [hx] at h
    cases r with
    | error e =>
      rw [Outcome.bind_error hx]
      exact ⟨h.keeps, h.sound, nofun, fun m he => h.fault m (by cases he; rfl)⟩
    | ok a =>
      rw [Outcome.bind_ok hx]
      have hr := hf a σ' h.keeps h.sound (h.value a rfl)
      exact ⟨h.keeps.trans hr.keeps, hr.sound, hr.value, hr.fault⟩

theorem ok {a : α} (hk : σ.Keeps σ') (hs : σ'.Sound) (h : P σ'.isCompiled a) :
    Safe P σ (.ok a, σ') :=
  ⟨hk, hs, fun _ e => by cases e; exact h, nofun⟩

theorem error {f : Fault} (hs : σ.Sound) (h : ∀ m, f ≠ .misuse m) :
    Safe P σ (.error (.fault f), σ) :=
  ⟨.refl σ, hs, nofun, fun m e => h m (by cases e; rfl)⟩

theorem pure {a : α} (hs : σ.Sound) (h : P σ.isCompiled a) :
    Safe P σ ((Pure.pure a : EvalM α) σ) :=
  ok (.refl σ) hs h

theorem ofExcept {r : Except Fault α} (hs : σ.Sound) (h : Proper (P σ.isCompiled) r) :
    Safe P σ (EvalM.ofExcept r σ) := by
  cases r with
  | ok a => exact pure hs (h.value a rfl)
  | error f => exact error hs fun m e => h.fault m (by rw [e])

/-- Of some results nothing has to be known. -/
theorem test {r : Except Fault α} (hs : σ.Sound) (h : Proper (fun _ => True) r) :
    Safe (fun _ _ => True) σ (EvalM.ofExcept r σ) :=
  ofExcept hs h

end Safe

/-! ## Operators -/

section

variable {known : Label → Bool} {v w : Value}

theorem Datum.Sound.of_functions (h : v.functions = []) : v.Sound known := by
  intro f hf
  rw [h] at hf
  cases hf

theorem Datum.Sound.checked (h : v.Sound known) (ty : Ty) :
    Proper (Datum.Sound known) (v.checked ty) := by
  unfold Datum.checked
  split
  · exact .ok h
  · exact .error nofun

theorem proper_toBool (v : Value) : Proper (fun _ => True) v.toBool := by
  unfold Datum.toBool
  split
  · exact .ok trivial
  · exact .error nofun

theorem proper_toNumber (v : Value) : Proper (fun _ => True) v.toNumber := by
  unfold Datum.toNumber
  split
  · exact .ok trivial
  · exact .error nofun

theorem proper_unary (op : UnaryOp) (v : Value) : Proper (Datum.Sound known) (op.apply v) := by
  unfold UnaryOp.apply
  split
  · exact .ok (.of_functions rfl)
  · exact .ok (.of_functions rfl)
  · exact .error nofun
  · exact .ok (.of_functions rfl)
  · exact .error nofun

theorem proper_onInts (op : BinaryOp) (a b : Int64) : Proper (fun _ => True) (op.onInts a b) := by
  have guarded : ∀ c : Int64, Proper (fun _ => True)
      (if b = 0 then .error .divisionByZero else .ok c) := by
    intro c
    split
    · exact .error nofun
    · exact .ok trivial
  cases op with
  | div => exact guarded _
  | mod => exact guarded _
  | _ => exact .ok trivial

theorem proper_binary (op : BinaryOp) (v w : Value) : Proper (Datum.Sound known) (op.apply v w) := by
  unfold BinaryOp.apply
  split
  · next a b =>
    have h := proper_onInts op a b
    cases hr : op.onInts a b with
    | ok c => exact .ok (.of_functions rfl)
    | error f => exact .error fun m e => h.fault m (by rw [hr, e])
  · exact .ok (.of_functions rfl)
  · refine (proper_toNumber _).bind fun x _ => (proper_toNumber _).bind fun y _ => ?_
    exact .ok (.of_functions rfl)

theorem proper_compare (op : Comparison) (v w : Value) : Proper (fun _ => True) (op.apply v w) := by
  unfold Comparison.apply
  split
  · exact .ok trivial
  · exact .ok trivial
  · exact .ok trivial
  · exact .error nofun

theorem proper_checkFields (vs : List Value) (tys : List Ty) :
    Proper (fun _ => True) (Datum.checkFields vs tys) := by
  induction vs, tys using Datum.checkFields.induct with
  | case1 v vs ty tys ih =>
    unfold Datum.checkFields Datum.checked
    split
    · exact ih
    · exact .error nofun
  | case2 vs tys h =>
    rw [Datum.checkFields]
    · exact .ok trivial
    · exact h

theorem proper_fit (shape : Shape) (fields : List Value) :
    Proper (fun _ => True) (Datum.fit shape fields) := by
  unfold Datum.fit
  split
  · exact proper_checkFields fields shape.fields
  · exact .error nofun

theorem Closure.proper_fit (arity : Nat) (f : Closure) : Proper (fun _ => True) (f.fit arity) := by
  unfold fit checkBoundArity
  split
  · show Proper _ (if f.arity = arity + 1 then _ else _)
    split
    · exact .ok trivial
    · exact .error nofun
  · exact .error nofun

theorem proper_fieldAt {fields : List Value} (h : ∀ v ∈ fields, v.Sound known) (slot : Nat) :
    Proper (Datum.Sound known) (Datum.fieldAt fields slot) := by
  unfold Datum.fieldAt
  split
  · next v hv => exact .ok (h v (List.mem_of_getElem? hv))
  · exact .error nofun

end

/-! ## Evaluation -/

/-- The code runs over these parameters; the caller's inputs are in reach if `root` says so. -/
structure Context.Sound (known : Label → Bool) (bound : List LocalId) (root : Bool)
    (ctx : Context) : Prop where
  bound : ∀ id ∈ bound, id ∈ ctx.locals.map Prod.fst
  locals : ∀ p ∈ ctx.locals, p.2.Sound known
  root : root = true → ∃ inputs, ctx.inputs = some inputs
  inputs : ∀ inputs, ctx.inputs = some inputs → ∀ v ∈ inputs.values, v.Sound known

/-- The code may run here. -/
structure Ready (bound : List LocalId) (root : Bool) (ctx : Context) (σ : Store) (e : Expr) :
    Prop where
  store : σ.Sound
  context : ctx.Sound σ.isCompiled bound root
  verified : e.verify σ.isCompiled bound root = .ok ()
  functions : ∀ f ∈ e.functions, f.Sound σ.isCompiled

namespace Ready

variable {bound : List LocalId} {root : Bool} {ctx : Context} {σ σ' : Store} {e : Expr}

theorem admitted (h : Ready bound root ctx σ e) : e.Admitted σ.isCompiled bound root :=
  ((Term.verify_eq_ok e).mp h.verified).1

theorem child (h : Ready bound root ctx σ e) {c : Expr} (hc : c ∈ e.children) :
    Ready bound root ctx σ c where
  store := h.store
  context := h.context
  verified := ((Term.verify_eq_ok e).mp h.verified).2 c hc
  functions f hf := h.functions f (Term.mem_functions_of_part (Term.mem_parts_of_mem_children hc) hf)

/-- The code may still run after other code has. -/
theorem later (h : Ready bound root ctx σ e) (hk : σ.Keeps σ') (hs : σ'.Sound) :
    Ready bound root ctx σ' e where
  store := hs
  context :=
    { bound := h.context.bound
      locals := fun p hp f hf => (h.context.locals p hp f hf).mono hk.isCompiled
      root := h.context.root
      inputs := fun i hi v hv f hf => (h.context.inputs i hi v hv f hf).mono hk.isCompiled }
  verified := Term.verify_mono hk.isCompiled e bound root h.verified
  functions f hf := (h.functions f hf).mono hk.isCompiled

end Ready

/-- Calls of sound functions on sound values are safe. -/
def SafeCall (call : Closure → List Value → EvalM Value) : Prop :=
  ∀ σ f vs, σ.Sound → f.Sound σ.isCompiled → (∀ v ∈ vs, v.Sound σ.isCompiled) →
    Safe Datum.Sound σ (call f vs σ)

/-- The code runs safely wherever it may run. -/
def SafeCode (call : Closure → List Value → EvalM Value) (bound : List LocalId) (root : Bool)
    (ctx : Context) (e : Expr) : Prop :=
  ∀ σ, Ready bound root ctx σ e → Safe Datum.Sound σ (e.eval call ctx σ)

section

variable {call : Closure → List Value → EvalM Value} {bound : List LocalId} {root : Bool}
  {ctx : Context} {σ : Store}

/-- A subtree runs first. -/
theorem SafeCode.first {e c : Expr} (hc : SafeCode call bound root ctx c)
    (h : Ready bound root ctx σ e) (hmem : c ∈ e.children) {β : Type}
    {Q : (Label → Bool) → β → Prop} {f : Value → EvalM β}
    (hf : ∀ v σ', Ready bound root ctx σ' e → v.Sound σ'.isCompiled → Safe Q σ' (f v σ')) :
    Safe Q σ ((c.eval call ctx >>= f) σ) :=
  (hc σ (h.child hmem)).bind fun v σ' hk hs hv => hf v σ' (h.later hk hs) hv

theorem safe_evalAll {es : List Expr} (each : ∀ e ∈ es, SafeCode call bound root ctx e)
    (hr : ∀ e ∈ es, Ready bound root ctx σ e) (hs : σ.Sound) :
    Safe (fun known vs => ∀ v ∈ vs, v.Sound known) σ (Term.evalAll call ctx es σ) := by
  induction es generalizing σ with
  | nil => exact .pure hs (by simp)
  | cons e es ih =>
    rw [List.forall_mem_cons] at each hr
    unfold Term.evalAll
    refine (each.1 σ hr.1).bind fun v σ₁ hk₁ hs₁ hv => ?_
    refine (ih each.2 (fun e he => (hr.2 e he).later hk₁ hs₁) hs₁).bind fun vs σ₂ hk₂ hs₂ hvs => ?_
    refine .pure hs₂ (List.forall_mem_cons.mpr ⟨fun f hf => ?_, hvs⟩)
    exact (hv f hf).mono hk₂.isCompiled

theorem safe_loc (id : LocalId) : SafeCode call bound root ctx (.loc id) := by
  intro σ h
  obtain ⟨v, hv, hmem⟩ := Lists.exists_lookup (h.context.bound id h.admitted)
  unfold Term.eval Context.read
  rw [hv]
  exact .pure h.store (h.context.locals _ hmem)

theorem safe_args : SafeCode call bound root ctx .args := by
  intro σ h
  obtain ⟨inputs, hi⟩ := h.context.root h.admitted
  unfold Term.eval Context.getInputs
  rw [hi]
  refine .pure h.store fun f hf => ?_
  rw [Datum.functions_array] at hf
  obtain ⟨v, hv, hf⟩ := List.mem_flatMap.mp hf
  exact h.context.inputs inputs hi v (List.mem_append_left _ hv) f hf

theorem safe_arg {vector : Expr} (hc : SafeCode call bound root ctx vector) (index : Nat) (ty : Ty) :
    SafeCode call bound root ctx (.arg vector index ty) := by
  intro σ h
  unfold Term.eval
  refine hc.first h List.mem_cons_self fun v σ₁ h₁ hv => ?_
  cases v with
  | array items =>
    dsimp only
    cases hw : items[index]? with
    | none => exact .error h₁.store fun _ e => by cases e
    | some w =>
      refine .ofExcept h₁.store (Datum.Sound.checked (fun f hf => hv f ?_) ty)
      rw [Datum.functions_array]
      exact List.mem_flatMap.mpr ⟨w, List.mem_of_getElem? hw, hf⟩
  | _ => exact .error h₁.store fun _ e => by cases e

theorem safe_var (name : String) (ty : Ty) : SafeCode call bound root ctx (.var name ty) := by
  intro σ h
  obtain ⟨inputs, hi⟩ := h.context.root h.admitted
  have hget : ctx.getInputs σ = (.ok inputs, σ) := by
    unfold Context.getInputs
    rw [hi]
    rfl
  unfold Term.eval
  rw [Outcome.bind_ok hget]
  cases hv : inputs.named.lookup name with
  | none => exact .error h.store fun _ e => by cases e
  | some v =>
    refine .ofExcept h.store (Datum.Sound.checked ?_ ty)
    obtain ⟨l, l', hl, -⟩ := List.lookup_eq_some_iff.mp hv
    have hmem : v ∈ inputs.named.map Prod.snd := List.mem_map.mpr ⟨(name, v), by simp [hl], rfl⟩
    exact h.context.inputs inputs hi v (List.mem_append_right _ hmem)

theorem safe_logical {l r : Expr} (hl : SafeCode call bound root ctx l)
    (hr : SafeCode call bound root ctx r) (op : Connective) :
    SafeCode call bound root ctx (.logical op l r) := by
  intro σ h
  unfold Term.eval
  refine hl.first h (by simp [Term.children]) fun v σ₁ h₁ _ => ?_
  refine (Safe.test h₁.store (proper_toBool v)).bind fun b σ₂ hk₂ hs₂ _ => ?_
  have h₂ := h₁.later hk₂ hs₂
  have right : Safe Datum.Sound σ₂ ((do
      return .bool (← .ofExcept (← r.eval call ctx).toBool) : EvalM Value) σ₂) := by
    refine hr.first h₂ (by simp [Term.children]) fun w σ₃ h₃ _ => ?_
    exact (Safe.test h₃.store (proper_toBool w)).bind fun c σ₄ _ hs₄ _ =>
      .pure hs₄ (.of_functions rfl)
  cases op <;> cases b
  · exact .pure hs₂ (.of_functions rfl)
  · exact right
  · exact right
  · exact .pure hs₂ (.of_functions rfl)

theorem safe_cond {c y n : Expr} (hc : SafeCode call bound root ctx c)
    (hy : SafeCode call bound root ctx y) (hn : SafeCode call bound root ctx n) :
    SafeCode call bound root ctx (.cond c y n) := by
  intro σ h
  unfold Term.eval
  refine hc.first h (by simp [Term.children]) fun v σ₁ h₁ _ => ?_
  refine (Safe.test h₁.store (proper_toBool v)).bind fun b σ₂ hk₂ hs₂ _ => ?_
  have h₂ := h₁.later hk₂ hs₂
  cases b with
  | true => exact hy σ₂ (h₂.child (by simp [Term.children]))
  | false => exact hn σ₂ (h₂.child (by simp [Term.children]))

theorem safe_call (hcall : SafeCall call) {callee : Expr} {as : List Expr}
    (hc : SafeCode call bound root ctx callee) (has : ∀ a ∈ as, SafeCode call bound root ctx a) :
    SafeCode call bound root ctx (.call callee as) := by
  intro σ h
  unfold Term.eval
  refine hc.first h List.mem_cons_self fun v σ₁ h₁ hv => ?_
  cases v with
  | function f =>
    have hready : ∀ a ∈ as, Ready bound root ctx σ₁ a := fun a ha =>
      h₁.child (List.mem_cons_of_mem callee ha)
    refine (safe_evalAll has hready h₁.store).bind fun vs σ₂ hk₂ hs₂ hvs => ?_
    exact hcall σ₂ f vs hs₂ ((hv f List.mem_cons_self).mono hk₂.isCompiled) hvs
  | _ => exact .error h₁.store fun _ e => by cases e

theorem safe_lambda (label : Label) (params : List Param) (body : Expr) :
    SafeCode call bound root ctx (.lambda label params body) := by
  intro σ h
  have hfun : ∀ f ∈ body.functions, f.Sound σ.isCompiled := fun f hf =>
    h.functions f (Term.mem_functions_of_part (t := .lambda label params body)
      List.mem_cons_self hf)
  obtain ⟨f, σ', hc⟩ : ∃ f σ', Lambda.compile ⟨label, params, body⟩ σ = (.ok f, σ') := by
    rw [Lambda.compile_run]
    cases hl : σ.function? label with
    | some f => exact ⟨f, σ, rfl⟩
    | none =>
      -- the lambda is not known, so its body was verified
      rcases h.admitted with hk | hb
      · simp [Store.isCompiled, hl] at hk
      · rw [Lambda.verify, Term.ite_eq_ok.mpr hb]
        exact ⟨_, _, rfl⟩
  obtain ⟨hk, hs, hf⟩ := h.store.compile hfun hc
  unfold Term.eval
  rw [Outcome.map_eq, Outcome.adapt_eq, hc]
  refine .ok hk hs fun g hg => ?_
  obtain rfl := List.mem_singleton.mp hg
  exact hf

theorem safe_newCarrier {fields : List Expr} (hfs : ∀ e ∈ fields, SafeCode call bound root ctx e)
    (shape : Shape) : SafeCode call bound root ctx (.newCarrier shape fields) := by
  intro σ h
  unfold Term.eval
  refine (safe_evalAll hfs (fun e he => h.child he) h.store).bind fun vs σ₁ _ hs₁ hvs => ?_
  rw [Outcome.adapt_eq, Datum.newCarrier_run]
  cases hfit : Datum.fit shape vs with
  | error f => exact .error hs₁ fun m e => (proper_fit shape vs).fault m (e ▸ hfit)
  | ok _ =>
    refine .ok (.newLabel σ₁) (hs₁.of_functions rfl) fun f hf => ?_
    rw [Datum.functions_carrier] at hf
    obtain ⟨v, hv, hf⟩ := List.mem_flatMap.mp hf
    exact hvs v hv f hf

theorem safe_field {carrier : Expr} (hc : SafeCode call bound root ctx carrier) (shape : Shape)
    (slot : Nat) : SafeCode call bound root ctx (.field carrier shape slot) := by
  intro σ h
  unfold Term.eval
  refine hc.first h List.mem_cons_self fun v σ₁ h₁ hv => ?_
  cases v with
  | carrier label shape fields =>
    refine .ofExcept h₁.store (proper_fieldAt (fun w hw f hf => hv f ?_) slot)
    rw [Datum.functions_carrier]
    exact List.mem_flatMap.mpr ⟨w, hw, hf⟩
  | _ => exact .error h₁.store fun _ e => by cases e

theorem safe_bind {carrier : Expr} (hc : SafeCode call bound root ctx carrier) (raw : Closure)
    (arity : Nat) : SafeCode call bound root ctx (.bind carrier raw arity) := by
  intro σ h
  unfold Term.eval
  refine hc.first h List.mem_cons_self fun v σ₁ h₁ hv => ?_
  rw [Outcome.map_eq, Outcome.adapt_eq, Closure.bind_run]
  cases hfit : raw.fit arity with
  | error f => exact .error h₁.store fun m e => (Closure.proper_fit arity raw).fault m (e ▸ hfit)
  | ok _ =>
    refine .ok (.newLabel σ₁) (h₁.store.of_functions rfl) fun g hg => ?_
    obtain rfl := List.mem_singleton.mp hg
    exact .bound hv (h₁.functions raw (Term.mem_functions_self rfl))

/-- Code runs safely: by induction on it, one lemma for each form. -/
theorem safe_eval (hcall : SafeCall call) (e : Expr) : SafeCode call bound root ctx e := by
  induction e using Term.childInduction with
  | step e ih =>
    cases e with
    | loc id => exact safe_loc id
    | args => exact safe_args
    | arg vector index ty => exact safe_arg (ih vector List.mem_cons_self) index ty
    | var name ty => exact safe_var name ty
    | binary op l r =>
      intro σ h
      unfold Term.eval
      refine (ih l (by simp [Term.children])).first h (by simp [Term.children]) fun v σ₁ h₁ _ => ?_
      refine (ih r (by simp [Term.children])).first h₁ (by simp [Term.children]) fun w σ₂ h₂ _ => ?_
      exact .ofExcept h₂.store (proper_binary op v w)
    | unary op e =>
      intro σ h
      unfold Term.eval
      refine (ih e List.mem_cons_self).first h List.mem_cons_self fun v σ₁ h₁ _ => ?_
      exact .ofExcept h₁.store (proper_unary op v)
    | compare op l r =>
      intro σ h
      unfold Term.eval
      refine (ih l (by simp [Term.children])).first h (by simp [Term.children]) fun v σ₁ h₁ _ => ?_
      refine (ih r (by simp [Term.children])).first h₁ (by simp [Term.children]) fun w σ₂ h₂ _ => ?_
      refine (Safe.test h₂.store (proper_compare op v w)).bind fun b σ₃ _ hs₃ _ => ?_
      exact .pure hs₃ (.of_functions rfl)
    | logical op l r =>
      exact safe_logical (ih l (by simp [Term.children])) (ih r (by simp [Term.children])) op
    | cond c y n =>
      exact safe_cond (ih c (by simp [Term.children])) (ih y (by simp [Term.children]))
        (ih n (by simp [Term.children]))
    | call callee as =>
      exact safe_call hcall (ih callee List.mem_cons_self)
        fun a ha => ih a (List.mem_cons_of_mem callee ha)
    | placeholder scope => exact fun σ h => h.admitted.elim
    | delegate scope f =>
      refine fun σ h => .pure h.store fun g hg => ?_
      obtain rfl := List.mem_singleton.mp hg
      exact h.functions g (Term.mem_functions_self rfl)
    | lambda label params body => exact safe_lambda label params body
    | newCarrier shape fields => exact safe_newCarrier ih shape
    | field carrier shape slot => exact safe_field (ih carrier List.mem_cons_self) shape slot
    | bind carrier raw arity => exact safe_bind (ih carrier List.mem_cons_self) raw arity
    | _ => exact fun σ h => .pure h.store (.of_functions rfl)

end

/-! ## Calls -/

/-- The code that a call enters is verified, and its parameters get sound values. -/
theorem Closure.Sound.enter {known : Label → Bool} {f : Closure} (h : f.Sound known)
    {vs : List Value} (hvs : ∀ v ∈ vs, v.Sound known) :
    Proper (fun p => ∃ bound, Context.Sound known bound false ⟨p.1, none⟩ ∧
      p.2.verify known bound false = .ok () ∧ ∀ f ∈ p.2.functions, f.Sound known) (f.enter vs) := by
  induction h generalizing vs with
  | @code label params body hv hf _ =>
    unfold Closure.enter
    split
    · next hlen =>
      refine .ok ⟨params, ⟨?_, ?_, nofun, nofun⟩, hv, hf⟩
      · intro id hid
        rwa [List.map_fst_zip (Nat.le_of_eq hlen.symm)]
      · intro p hp
        exact hvs p.2 (List.of_mem_zip hp).2
    · exact .error nofun
  | bound hfirst _ _ ih =>
    unfold Closure.enter
    split
    · exact ih (List.forall_mem_cons.mpr ⟨hfirst, hvs⟩)
    · exact .error nofun

/-- Calls are safe, however deep they nest. -/
theorem safe_invoke (depth : Nat) : SafeCall (Closure.invoke depth) := by
  induction depth with
  | zero => exact fun σ f vs hs _ _ => ⟨.refl σ, hs, nofun, nofun⟩
  | succ depth ih =>
    intro σ f vs hs hf hvs
    have henter := hf.enter hvs
    unfold Closure.invoke
    cases he : f.enter vs with
    | error e => exact .error hs fun m hm => henter.fault m (hm ▸ he)
    | ok p =>
      obtain ⟨bound, hctx, hv, hfun⟩ := henter.value p he
      exact safe_eval ih p.2 σ ⟨hs, hctx, hv, hfun⟩

/-- A whole expression that passes the check runs safely. -/
theorem safe_evaluate {σ : Store} (hs : σ.Sound) {e : Expr} {inputs : Inputs}
    (hf : ∀ f ∈ e.functions, f.Sound σ.isCompiled)
    (hi : ∀ v ∈ inputs.values, v.Sound σ.isCompiled) (depth : Nat)
    (hv : e.verify σ.isCompiled [] true = .ok ()) :
    Safe Datum.Sound σ (e.evaluate depth inputs σ) := by
  rw [Term.evaluate_run, hv]
  refine safe_eval (safe_invoke depth) e σ ⟨hs, ⟨by simp, by simp, ?_, ?_⟩, hv, hf⟩
  · exact fun _ => ⟨inputs, rfl⟩
  · rintro _ ⟨⟩
    exact hi

/-! ## Clients -/

/-- What holds of everything that a client has made. -/
theorem Process.sound {ok : Lambda → Prop} {σ : Store} {fs : List Closure} (h : Process ok σ fs) :
    σ.Sound ∧ ∀ f ∈ fs, f.Sound σ.isCompiled := by
  have answers : ∀ {σ σ' : Store} {fs : List Closure} {r : Except Halt Value},
      (∀ f ∈ fs, f.Sound σ.isCompiled) → Safe Datum.Sound σ (r, σ') →
      σ'.Sound ∧ ∀ f ∈ answered r ++ fs, f.Sound σ'.isCompiled := by
    intro σ σ' fs r hfs hr
    refine ⟨hr.sound, fun f hf => ?_⟩
    rcases List.mem_append.mp hf with hf | hf
    · cases r with
      | ok v => exact hr.value v rfl f hf
      | error _ => cases hf
    · exact (hfs f hf).mono hr.keeps.isCompiled
  induction h with
  | start h =>
    refine ⟨fun l f hf => ?_, by simp⟩
    rw [Store.function?, h] at hf
    cases hf
  | labels _ hn hfun ih =>
    have hk := Store.Keeps.of_functions hn hfun
    exact ⟨ih.1.of_functions hfun, fun f hf => (ih.2 f hf).mono hk.isCompiled⟩
  | @compile σ σ' fs l f _ hover hc ih =>
    have hbody : ∀ g ∈ l.body.functions, g.Sound σ.isCompiled := fun g hg =>
      ih.2 g (hover.functions g (Term.mem_functions_of_part (t := l.toExpr) List.mem_cons_self hg))
    obtain ⟨hk, hs, hf⟩ := ih.1.compile hbody hc
    exact ⟨hs, List.forall_mem_cons.mpr ⟨hf, fun g hg => (ih.2 g hg).mono hk.isCompiled⟩⟩
  | @bind σ σ' fs arity first raw f _ hraw hfirst hb ih =>
    rw [Closure.bind_run] at hb
    cases hfit : raw.fit arity with
    | error e =>
      rw [hfit] at hb
      cases hb
    | ok _ =>
      rw [hfit] at hb
      cases hb
      refine ⟨ih.1.of_functions rfl, List.forall_mem_cons.mpr ⟨?_, ih.2⟩⟩
      exact .bound (fun g hg => ih.2 g (hfirst.functions g hg)) (ih.2 raw hraw)
  | @invoke σ σ' fs f vs depth r _ hf hvs hr ih =>
    have hsafe := safe_invoke depth σ f vs ih.1 (ih.2 f hf) fun v hv g hg =>
      ih.2 g ((hvs v hv).functions g hg)
    exact answers ih.2 (hr ▸ hsafe)
  | @evaluate σ σ' fs e inputs depth r _ he hi hr ih =>
    cases hv : e.verify σ.isCompiled [] true with
    | error err =>
      rw [Term.evaluate_run, hv] at hr
      cases hr
      exact ih
    | ok _ =>
      have hsafe := safe_evaluate ih.1 (fun f hf => ih.2 f (he.functions f hf))
        (fun v hv g hg => ih.2 g ((hi v hv).functions g hg)) depth hv
      exact answers ih.2 (hr ▸ hsafe)

/-- Functions that a client has made never end in a misuse, nor does one that it compiles now; and a
whole expression ends in one exactly if it does not pass the check, with the text of that error. -/
theorem no_misuse {ok : Lambda → Prop} {σ : Store} {fs : List Closure} (h : Process ok σ fs) :
    (∀ f ∈ fs, ∀ vs : List Value, (∀ v ∈ vs, ∀ g ∈ v.functions, g ∈ fs) →
      ∀ depth m, (f.invoke depth vs σ).1 ≠ .error (.fault (.misuse m))) ∧
    (∀ (l : Lambda) (f : Closure) (σ' : Store), (∀ g ∈ l.body.functions, g ∈ fs) →
      l.compile σ = (.ok f, σ') →
      ∀ vs : List Value, (∀ v ∈ vs, ∀ g ∈ v.functions, g ∈ f :: fs) →
        ∀ depth m, (f.invoke depth vs σ').1 ≠ .error (.fault (.misuse m))) ∧
    (∀ e : Expr, (∀ g ∈ e.functions, g ∈ fs) →
      ∀ inputs : Inputs, (∀ v ∈ inputs.values, ∀ g ∈ v.functions, g ∈ fs) →
        ∀ depth m, (e.evaluate depth inputs σ).1 = .error (.fault (.misuse m)) ↔
          ∃ err, e.verify σ.isCompiled [] true = .error err ∧ m = .rejected err ∧
            m.message = err.message) := by
  obtain ⟨hs, hfs⟩ := h.sound
  refine ⟨fun f hf vs hvs depth => ?_, fun l f σ' hl hc vs hvs depth => ?_,
    fun e he inputs hi depth m => ?_⟩
  · exact (safe_invoke depth σ f vs hs (hfs f hf) fun v hv g hg => hfs g (hvs v hv g hg)).fault
  · obtain ⟨hk, hs', hf⟩ := hs.compile (fun g hg => hfs g (hl g hg)) hc
    refine (safe_invoke depth σ' f vs hs' hf fun v hv g hg => ?_).fault
    rcases List.mem_cons.mp (hvs v hv g hg) with rfl | hg
    · exact hf
    · exact (hfs g hg).mono hk.isCompiled
  · cases hv : e.verify σ.isCompiled [] true with
    | error err =>
      rw [Term.evaluate_run, hv]
      constructor
      · rintro ⟨⟩
        exact ⟨err, rfl, rfl, rfl⟩
      · rintro ⟨_, ⟨⟩, rfl, -⟩
        rfl
    | ok _ =>
      have hsafe := safe_evaluate hs (fun f hf => hfs f (he f hf))
        (fun v hv g hg => hfs g (hi v hv g hg)) depth hv
      constructor
      · exact fun hm => absurd hm (hsafe.fault m)
      · rintro ⟨_, ⟨⟩, -⟩

/-- Adds one to its parameter. -/
def successor : Lambda := ⟨0, [⟨0, "x", .int, .dummy⟩], .binary .add (.loc 0) (.int 1)⟩

/-- Calls another lambda, which is compiled on the way. -/
def applier : Lambda := ⟨1, [⟨1, "y", .int, .dummy⟩], .call successor.toExpr [.loc 1]⟩

/-- A bound function runs verified code to its end, and an expression that reads a parameter out of
nowhere is refused. -/
theorem no_misuse_applier :
    let f := applier.closure 2
    let g := Closure.bound 3 0 (.int 41) f
    let σ : Store := { nextLabel := 4, functions := [(1, f)] }
    (g.invoke 2 [] σ).1 = .ok (.int 42) ∧
    (∀ depth m, (g.invoke depth [] σ).1 ≠ .error (.fault (.misuse m))) ∧
    ((Term.loc 7).evaluate 1 {} σ).1 = .error (.fault (.misuse (.rejected (.unboundLocal 7)))) := by
  intro f g σ
  have h₀ : Process (fun _ => True) { nextLabel := 2 } [] := .start rfl
  have hnone : applier.toExpr.functions = [] := rfl
  have h₁ : Process (fun _ => True) { nextLabel := 3, functions := [(1, f)] } [f] :=
    h₀.compile (l := applier) ⟨by simp [hnone], fun _ _ => trivial⟩ rfl
  have hfirst : (Datum.int 41 : Value).Over { nextLabel := 3, functions := [(1, f)] } [f] :=
    ⟨nofun, nofun⟩
  have hbind : f.bind 0 (.int 41) { nextLabel := 3, functions := [(1, f)] } = (.ok g, σ) := rfl
  have h₂ : Process (fun _ => True) σ [g, f] := h₁.bind List.mem_cons_self hfirst hbind
  have main := no_misuse h₂
  refine ⟨rfl, ?_, ?_⟩
  · exact main.1 g List.mem_cons_self [] (by simp)
  · have hnone : (Term.loc 7 : Expr).functions = [] := rfl
    exact (main.2.2 (.loc 7) (by simp [hnone]) {} (by simp [Inputs.values]) 1 _).mpr
      ⟨_, rfl, rfl, rfl⟩

end ClosureConversion
