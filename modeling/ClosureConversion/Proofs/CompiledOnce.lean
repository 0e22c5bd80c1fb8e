import ClosureConversion.Proofs.Renaming

/-!
A lambda is compiled once, and need not be looked into again.

Verification does not enter a lambda that is compiled already.  Nothing is missed in this way, since
that lambda passed the check when it was compiled, and code that passes once passes ever after
(`Term.verify_eq_full`).  That the functions of the store are those of their lambdas is known from
`Process.settled`; what is left is that none takes too many arguments, which every run keeps,
whatever it runs (`Steady`).

`short_cut_exact`: what a client meets is as if lambdas were always looked into, and a lambda once
compiled is one and the same function from then on (`Store.Later`).
-/

namespace ClosureConversion

/-! ## What every run keeps -/

namespace Store

/-- The later store has all functions of the earlier one, and new ones take few enough arguments. -/
structure Advances (σ σ' : Store) : Prop extends σ.Keeps σ' where
  arity : ∀ l f, σ'.function? l = some f → σ.function? l = some f ∨ f.arity ≤ Closure.maxArity

namespace Advances

variable {σ σ' σ'' : Store}

theorem refl (σ : Store) : σ.Advances σ := ⟨.refl σ, fun _ _ h => .inl h⟩

theorem trans (h : σ.Advances σ') (k : σ'.Advances σ'') : σ.Advances σ'' := by
  refine ⟨h.toKeeps.trans k.toKeeps, fun l f hf => ?_⟩
  rcases k.arity l f hf with hf | hf
  · exact h.arity l f hf
  · exact .inr hf

theorem of_functions (hn : σ.nextLabel ≤ σ'.nextLabel) (hf : σ'.functions = σ.functions) :
    σ.Advances σ' := by
  refine ⟨.of_functions hn hf, fun l f h => .inl ?_⟩
  rwa [Store.function?, hf] at h

theorem record {l : Lambda} (hn : σ.function? l.label = none)
    (hv : l.verify σ.isCompiled = .ok ()) : σ.Advances (σ.record l) := by
  refine ⟨.record hn, fun k f hf => ?_⟩
  rcases cases_of_record hf with ⟨-, rfl⟩ | ⟨-, hf⟩
  · right
    have hp := (Term.ite_eq_ok.mp hv).1
    simpa [Lambda.closure, Closure.arity] using hp
  · exact .inl hf

end Advances

end Store

/-- However the computation ends, the functions of the store stay. -/
def Steady {ε α : Type} (x : ExceptT ε (StateM Store) α) : Prop :=
  ∀ σ : Store, σ.Advances (x σ).2

namespace Steady

variable {ε ε' α β : Type} {x : ExceptT ε (StateM Store) α}

theorem bind {f : α → ExceptT ε (StateM Store) β} (hx : Steady x) (hf : ∀ a, Steady (f a)) :
    Steady (x >>= f) :=
  fun σ => Outcome.bind_rel (fun _ _ _ => Store.Advances.trans) (hx σ) fun a σ' => hf a σ'

theorem advances {σ σ' : Store} {r : Except ε α} (hx : Steady x) (h : x σ = (r, σ')) :
    σ.Advances σ' := by
  have ha := hx σ
  rwa [h] at ha

theorem pure (a : α) : Steady (Pure.pure a : ExceptT ε (StateM Store) α) := fun σ => .refl σ

theorem fail (f : Fault) : Steady (EvalM.fail f : EvalM α) := fun σ => .refl σ

theorem ofExcept (r : Except Fault α) : Steady (EvalM.ofExcept r) := by
  cases r with
  | ok a => exact pure a
  | error f => exact fail f

theorem map (g : α → β) (hx : Steady x) : Steady (g <$> x) := by
  intro σ
  rw [Outcome.map_eq]
  exact hx σ

theorem adapt (g : ε → ε') (hx : Steady x) : Steady (ExceptT.adapt g x) := hx

theorem compile (l : Lambda) : Steady l.compile := by
  intro σ
  rcases l.compile_cases σ with ⟨f, -, hc⟩ | ⟨hn, ⟨err, -, hc⟩ | ⟨hv, hc⟩⟩
  · rw [hc]
    exact .refl σ
  · rw [hc]
    exact .refl σ
  · rw [hc]
    exact .record hn hv

theorem newCarrier (shape : Shape) (fields : List Value) :
    Steady (Datum.newCarrier shape fields) := by
  intro σ
  rw [Datum.newCarrier_run]
  cases Datum.fit shape fields with
  | error f => exact .refl σ
  | ok _ => exact .of_functions (Nat.le_succ _) rfl

theorem bindFunction (arity : Nat) (first : Value) (raw : Closure) :
    Steady (raw.bind arity first) := by
  intro σ
  rw [Closure.bind_run]
  cases raw.fit arity with
  | error f => exact .refl σ
  | ok _ => exact .of_functions (Nat.le_succ _) rfl

section

variable {call : Closure → List Value → EvalM Value} (hcall : ∀ f vs, Steady (call f vs))
  {ctx : Context}

theorem evalAll {es : List Expr} (h : ∀ e ∈ es, Steady (e.eval call ctx)) :
    Steady (Term.evalAll call ctx es) := by
  induction es with
  | nil =>
    unfold Term.evalAll
    exact pure []
  | cons e es ih =>
    rw [List.forall_mem_cons] at h
    unfold Term.evalAll
    exact h.1.bind fun v => (ih h.2).bind fun vs => pure (v :: vs)

theorem getInputs : Steady ctx.getInputs := by
  unfold Context.getInputs
  cases ctx.inputs with
  | some inputs => exact pure inputs
  | none => exact fail _

include hcall

/-- Code keeps the functions of the store: by induction on it. -/
theorem eval (e : Expr) : Steady (e.eval call ctx) := by
  induction e using Term.childInduction with
  | step e ih =>
    cases e <;> unfold Term.eval
    case loc id =>
      unfold Context.read
      cases ctx.locals.lookup id with
      | some v => exact pure v
      | none => exact fail _
    case args => exact getInputs.bind fun inputs => pure _
    case arg vector index ty =>
      refine (ih vector List.mem_cons_self).bind fun v => ?_
      cases v with
      | array items =>
        dsimp only
        cases items[index]? with
        | some w => exact ofExcept _
        | none => exact fail _
      | _ => exact fail _
    case var name ty =>
      refine getInputs.bind fun inputs => ?_
      cases inputs.named.lookup name with
      | some v => exact ofExcept _
      | none => exact fail _
    case binary op l r =>
      refine (ih l (by simp [Term.children])).bind fun v => ?_
      exact (ih r (by simp [Term.children])).bind fun w => ofExcept _
    case unary op e => exact (ih e List.mem_cons_self).bind fun v => ofExcept _
    case compare op l r =>
      refine (ih l (by simp [Term.children])).bind fun v => ?_
      refine (ih r (by simp [Term.children])).bind fun w => ?_
      exact (ofExcept _).bind fun b => pure _
    case logical op l r =>
      refine (ih l (by simp [Term.children])).bind fun v => (ofExcept _).bind fun b => ?_
      have right : Steady (do
          return Datum.bool (← EvalM.ofExcept (← r.eval call ctx).toBool) : EvalM Value) :=
        (ih r (by simp [Term.children])).bind fun w => (ofExcept _).bind fun b => pure _
      cases op <;> cases b
      · exact pure _
      · exact right
      · exact right
      · exact pure _
    case cond c y n =>
      refine (ih c (by simp [Term.children])).bind fun v => (ofExcept _).bind fun b => ?_
      cases b with
      | true => exact ih y (by simp [Term.children])
      | false => exact ih n (by simp [Term.children])
    case call callee as =>
      refine (ih callee List.mem_cons_self).bind fun v => ?_
      cases v with
      | function f =>
        exact (evalAll fun a ha => ih a (List.mem_cons_of_mem callee ha)).bind fun vs => hcall f vs
      | _ => exact fail _
    case lambda label params body => exact ((compile _).adapt _).map _
    case newCarrier shape fields =>
      exact (evalAll ih).bind fun vs => (newCarrier shape vs).adapt _
    case field carrier shape slot =>
      refine (ih carrier List.mem_cons_self).bind fun v => ?_
      cases v with
      | carrier label s fields => exact ofExcept _
      | _ => exact fail _
    case bind carrier f arity =>
      exact (ih carrier List.mem_cons_self).bind fun v => ((bindFunction arity v f).adapt _).map _
    case placeholder scope => exact fail _
    all_goals exact pure _

end

theorem invoke (depth : Nat) (f : Closure) (vs : List Value) : Steady (f.invoke depth vs) := by
  induction depth generalizing f vs with
  | zero => exact fun σ => .refl σ
  | succ depth ih =>
    unfold Closure.invoke
    exact (ofExcept _).bind fun p => eval ih p.2

theorem evaluate (depth : Nat) (inputs : Inputs) (e : Expr) :
    Steady (e.evaluate depth inputs) := by
  intro σ
  rw [Term.evaluate_run]
  cases e.verify σ.isCompiled [] true with
  | error err => exact .refl σ
  | ok _ => exact eval (invoke depth) e σ

end Steady

/-- No function of the store takes too many arguments. -/
theorem Process.arity_le {ok : Lambda → Prop} {σ : Store} {fs : List Closure}
    (h : Process ok σ fs) : ∀ l f, σ.function? l = some f → f.arity ≤ Closure.maxArity := by
  have step : ∀ {σ σ' : Store}, σ.Advances σ' →
      (∀ l f, σ.function? l = some f → f.arity ≤ Closure.maxArity) →
      ∀ l f, σ'.function? l = some f → f.arity ≤ Closure.maxArity := by
    intro σ σ' ha hle l f hf
    exact (ha.arity l f hf).elim (hle l f) id
  induction h with
  | start h =>
    intro l f hf
    rw [Store.function?, h] at hf
    cases hf
  | labels _ hn hfun ih => exact step (.of_functions hn hfun) ih
  | compile _ _ hc ih => exact step ((Steady.compile _).advances hc) ih
  | bind _ _ _ hb ih => exact step ((Steady.bindFunction _ _ _).advances hb) ih
  | invoke _ _ _ hr ih => exact step ((Steady.invoke _ _ _).advances hr) ih
  | evaluate _ _ _ hr ih => exact step ((Steady.evaluate _ _ _).advances hr) ih

/-! ## Verification with and without the short cut -/

namespace Term

theorem verifyAll_congr {known known' : Label → Bool} {bound : List LocalId} {root : Bool}
    {es : List Expr} (h : ∀ e ∈ es, e.verify known bound root = e.verify known' bound root) :
    verifyAll known bound root es = verifyAll known' bound root es := by
  induction es with
  | nil => rfl
  | cons e es ih =>
    rw [List.forall_mem_cons] at h
    rw [verifyAll, verifyAll, h.1, ih h.2]

/-- If the lambdas that count as compiled pass the check with the short cut, every check comes to
the same without it. -/
theorem verify_eq_full {lam : Label → Lambda} {known : Label → Bool}
    (hk : ∀ l, known l = true → (lam l).verify known = .ok ()) (e : Expr)
    (hl : ∀ m ∈ e.lambdas, lam m.label = m) :
    ∀ bound root, e.verify known bound root = e.verify (fun _ => false) bound root := by
  induction e using partInduction with
  | step e ih =>
    intro bound root
    have part : ∀ c ∈ e.parts, ∀ bound root,
        c.verify known bound root = c.verify (fun _ => false) bound root :=
      fun c hc => ih c hc fun m hm => hl m (mem_lambdas_of_part hc hm)
    cases e with
    | lambda label params body =>
      have hbody := part body List.mem_cons_self (params.map Param.id) false
      by_cases hc : known label = true
      · -- the short cut is taken, so the other way must find nothing
        have hm : lam label = ⟨label, params, body⟩ := hl ⟨label, params, body⟩ (mem_lambdas_self rfl)
        have hv := hk label hc
        rw [hm] at hv
        obtain ⟨hp, hb⟩ := ite_eq_ok.mp hv
        have hp : params.length ≤ Closure.maxArity := hp
        have hb : body.verify known (params.map Param.id) false = .ok () := hb
        simp only [verify, hc, hp, if_true, ← hbody, hb, Bool.false_eq_true, if_false]
      · simp only [verify, hc, if_false, hbody, Bool.false_eq_true]
    | arg v i ty => exact part v List.mem_cons_self bound root
    | unary op e => exact part e List.mem_cons_self bound root
    | binary op l r | compare op l r | logical op l r =>
      simp only [verify, part l (by simp [parts, children]), part r (by simp [parts, children])]
    | cond c y n =>
      simp only [verify, part c (by simp [parts, children]), part y (by simp [parts, children]),
        part n (by simp [parts, children])]
    | call f as =>
      have has := verifyAll_congr fun a ha => part a (List.mem_cons_of_mem f ha) bound root
      simp only [verify, part f List.mem_cons_self, has]
    | newCarrier shape fields =>
      have hfs : verifyAll known bound root fields = verifyAll (fun _ => false) bound root fields :=
        verifyAll_congr fun a ha => part a ha bound root
      simp only [verify, hfs]
    | field c shape slot => simp only [verify, part c List.mem_cons_self]
    | bind c f arity => simp only [verify, part c List.mem_cons_self]
    | _ => rfl

end Term

/-- A lambda that is compiled passes the check. -/
theorem Store.Fine.verify {lam : Label → Lambda} {base : Label} {σ : Store} (h : σ.Fine lam base)
    (harity : ∀ l f, σ.function? l = some f → f.arity ≤ Closure.maxArity) (l : Label)
    (hl : σ.isCompiled l = true) : (lam l).verify σ.isCompiled = .ok () := by
  obtain ⟨f, hf⟩ := Option.isSome_iff_exists.mp hl
  have hown := h.own l f hf
  have hsound := h.sound l f hf
  have hle := harity l f hf
  rw [hown] at hsound hle
  refine Term.ite_eq_ok.mpr ⟨?_, ?_⟩
  · simpa [Lambda.closure, Closure.arity] using hle
  · cases hsound with
    | code hv _ => exact hv

/-! ## Compiling again -/

theorem Lambda.compile_error {l : Lambda} {σ σ' : Store} {err : CodeError}
    (h : l.compile σ = (.error err, σ')) : σ' = σ ∧ σ'.isCompiled l.label = false := by
  rcases l.compile_cases σ with ⟨f, -, hr⟩ | ⟨hn, ⟨e, -, hr⟩ | ⟨-, hr⟩⟩
  · cases h.symm.trans hr
  · cases h.symm.trans hr
    exact ⟨rfl, by rw [Store.isCompiled, hn]; rfl⟩
  · cases h.symm.trans hr

theorem Lambda.function?_of_compile {l : Lambda} {σ σ' : Store} {f : Closure}
    (h : l.compile σ = (.ok f, σ')) : σ'.function? l.label = some f := by
  rcases l.compile_cases σ with ⟨g, hf, hr⟩ | ⟨-, ⟨e, -, hr⟩ | ⟨-, hr⟩⟩
  · cases h.symm.trans hr
    exact hf
  · cases h.symm.trans hr
  · cases h.symm.trans hr
    rw [Store.function?_record, if_pos rfl]

/-- The stores that come after `σ`, whatever clients do. -/
inductive Store.Later (σ : Store) : Store → Prop
  | refl : Later σ σ
  | labels {τ τ' : Store} :
      Later σ τ → τ.nextLabel ≤ τ'.nextLabel → τ'.functions = τ.functions → Later σ τ'
  | compile {τ : Store} (l : Lambda) : Later σ τ → Later σ (l.compile τ).2
  | bind {τ : Store} (arity : Nat) (first : Value) (raw : Closure) :
      Later σ τ → Later σ (raw.bind arity first τ).2
  | invoke {τ : Store} (depth : Nat) (f : Closure) (vs : List Value) :
      Later σ τ → Later σ (f.invoke depth vs τ).2
  | evaluate {τ : Store} (depth : Nat) (inputs : Inputs) (e : Expr) :
      Later σ τ → Later σ (e.evaluate depth inputs τ).2

theorem Store.Later.keeps {σ τ : Store} (h : σ.Later τ) : σ.Keeps τ := by
  induction h with
  | refl => exact .refl σ
  | labels _ hn hf ih => exact ih.trans (.of_functions hn hf)
  | compile l _ ih => exact ih.trans (Steady.compile l _).toKeeps
  | bind arity first raw _ ih => exact ih.trans (Steady.bindFunction arity first raw _).toKeeps
  | invoke depth f vs _ ih => exact ih.trans (Steady.invoke depth f vs _).toKeeps
  | evaluate depth inputs e _ ih => exact ih.trans (Steady.evaluate depth inputs e _).toKeeps

theorem Term.evaluate_of_function? {m : Lambda} {σ : Store} {f : Closure}
    (h : σ.function? m.label = some f) (depth : Nat) (inputs : Inputs) :
    m.toExpr.evaluate depth inputs σ = (.ok (.function f), σ) := by
  have hv : m.toExpr.verify σ.isCompiled [] true = .ok () := by
    unfold Lambda.toExpr Term.verify
    exact if_pos (Option.isSome_iff_exists.mpr ⟨f, h⟩)
  rw [Term.evaluate_run, hv]
  exact eval_lambda (Lambda.compile_of_function? h)

/-- In every store that a client comes to with lambdas that have their labels to themselves:

* a check that does not look into compiled lambdas finds what one finds that looks into all;
* a lambda compiles iff it passes the full check, and if it does not, it is not compiled and nothing
  has changed;
* a lambda that is compiled is the same function ever after, wherever it is met. -/
theorem short_cut_exact {lam : Label → Lambda} {σ : Store} {fs : List Closure}
    (h : Process (fun m => lam m.label = m) σ fs) :
    (∀ e : Expr, (∀ m ∈ e.lambdas, lam m.label = m) → ∀ bound root,
      e.verify σ.isCompiled bound root = e.verify (fun _ => false) bound root) ∧
    (∀ l : Lambda, (∀ m ∈ l.toExpr.lambdas, lam m.label = m) →
      l.verify σ.isCompiled = l.verify (fun _ => false) ∧
      (l.compile σ).1.map (fun _ => ()) = l.verify fun _ => false) ∧
    (∀ (l : Lambda) (err : CodeError) (σ' : Store), l.compile σ = (.error err, σ') →
      σ' = σ ∧ σ'.isCompiled l.label = false) ∧
    (∀ (l : Lambda) (f : Closure) (σ' : Store), l.compile σ = (.ok f, σ') →
      σ'.function? l.label = some f) ∧
    ∀ label f, σ.function? label = some f → ∀ τ, σ.Later τ → ∀ m : Lambda, m.label = label →
      m.compile τ = (.ok f, τ) ∧
      (∀ call ctx, m.toExpr.eval call ctx τ = (.ok (.function f), τ)) ∧
      ∀ depth inputs, m.toExpr.evaluate depth inputs τ = (.ok (.function f), τ) := by
  have hk : ∀ l, σ.isCompiled l = true → (lam l).verify σ.isCompiled = .ok () :=
    h.settled.1.verify h.arity_le
  have whole : ∀ e : Expr, (∀ m ∈ e.lambdas, lam m.label = m) → ∀ bound root,
      e.verify σ.isCompiled bound root = e.verify (fun _ => false) bound root :=
    Term.verify_eq_full hk
  refine ⟨whole, fun l hl => ?_, fun l err σ' => Lambda.compile_error,
    fun l f σ' => Lambda.function?_of_compile, fun label f hf τ hτ m hm => ?_⟩
  · have hbody := whole l.body (fun m hm => hl m (Term.mem_lambdas_of_part List.mem_cons_self hm))
      (l.params.map Param.id) false
    have hfull : l.verify σ.isCompiled = l.verify fun _ => false := by
      unfold Lambda.verify
      rw [hbody]
    refine ⟨hfull, ?_⟩
    rw [← hfull]
    rcases l.compile_cases σ with ⟨f, hf, hc⟩ | ⟨-, ⟨err, hv, hc⟩ | ⟨hv, hc⟩⟩
    · -- it passed the check when it was compiled
      have hv := hk l.label (Option.isSome_iff_exists.mpr ⟨f, hf⟩)
      rw [hl l (Term.mem_lambdas_self rfl)] at hv
      rw [hc, hv]
      rfl
    · rw [hc, hv]
      rfl
    · rw [hc, hv]
      rfl
  · subst hm
    have hf' := hτ.keeps.function? _ f hf
    exact ⟨Lambda.compile_of_function? hf', fun call ctx =>
      eval_lambda (Lambda.compile_of_function? hf'), Term.evaluate_of_function? hf'⟩

/-- Shares a lambda with `applier`, and reads a parameter that is not bound. -/
def stray : Lambda := ⟨2, [], .call successor.toExpr [.loc 9]⟩

/-- `successor` is compiled, and `applier` and `stray` share it.  The first passes the check and the
second does not, whether or not `successor` is looked into; and after calls through `applier` it is
the function that it was. -/
theorem short_cut_exact_shared :
    let f := successor.closure 3
    let σ : Store := { nextLabel := 4, functions := [(0, f)] }
    let τ := ((applier.closure 4).invoke 2 [.int 41] (applier.compile σ).2).2
    (applier.compile σ).1 = .ok (applier.closure 4) ∧
    applier.verify (fun _ => false) = .ok () ∧
    stray.verify σ.isCompiled = .error (.unboundLocal 9) ∧
    stray.verify (fun _ => false) = .error (.unboundLocal 9) ∧
    (stray.compile σ).2.isCompiled stray.label = false ∧
    ∀ depth inputs, successor.toExpr.evaluate depth inputs τ = (.ok (.function f), τ) := by
  intro f σ τ
  let lam : Label → Lambda := fun l => if l = 0 then successor else if l = 1 then applier else stray
  have hfun : successor.toExpr.functions = [] := rfl
  have hsucc : successor.toExpr.lambdas = [successor] := rfl
  have happ : applier.toExpr.lambdas = [applier, successor] := rfl
  have hstray : stray.toExpr.lambdas = [stray, successor] := rfl
  have h₀ : Process (fun m => lam m.label = m) { nextLabel := 3 } [] := .start rfl
  have h₁ : Process (fun m => lam m.label = m) σ [f] := by
    refine h₀.compile (l := successor) ⟨by simp [hfun], ?_⟩ rfl
    rw [hsucc]
    exact List.forall_mem_singleton.mpr rfl
  obtain ⟨-, hchecks, herror, -, hsame⟩ := short_cut_exact h₁
  obtain ⟨happly, -⟩ := hchecks applier (by rw [happ]; simp [lam, applier, successor])
  obtain ⟨hfull, -⟩ := hchecks stray (by rw [hstray]; simp [lam, stray, successor])
  refine ⟨rfl, happly.symm.trans rfl, rfl, hfull.symm.trans rfl, (herror stray _ _ rfl).2, ?_⟩
  exact (hsame 0 f rfl τ (.invoke 2 _ _ (.compile applier .refl)) successor rfl).2.2

end ClosureConversion
