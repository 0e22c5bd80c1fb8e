import ClosureConversion.Proofs.CompiledOnce

/-!
Functions with some of their arguments fixed.

A function is compiled code, or another function with its first argument fixed; the latter can itself
have its first argument fixed, and so on.  Each layer counts the arguments of a call for itself, puts
its own in front and passes them on.  `Closure.Fixing lam l vs f` says that `f` is what comes of the
lambda `l` when it is compiled and the values `vs` are fixed, the first of them first.

`calls_of_fixing`: such a function behaves as the code of `l` does on `vs` and the arguments of the
call.  A call with too few or too many fails at the outermost layer, and otherwise no layer fails.
-/

namespace ClosureConversion

namespace Closure

/-- The function of `l`, compiled in a store that clients come to, with these values fixed one after
the other. -/
inductive Fixing (lam : Label → Lambda) (l : Lambda) : List Value → Closure → Prop
  | compiled {σ σ' : Store} {fs : List Closure} {f : Closure} :
      Process (fun m => lam m.label = m) σ fs → lam l.label = l → l.compile σ = (.ok f, σ') →
      Fixing lam l [] f
  | bind {vs : List Value} {v : Value} {raw f : Closure} {arity : Nat} {σ σ' : Store} :
      Fixing lam l vs raw → raw.bind arity v σ = (.ok f, σ') → Fixing lam l (vs ++ [v]) f

/-! ## One layer -/

theorem fit_eq_ok_iff (raw : Closure) (arity : Nat) :
    raw.fit arity = .ok () ↔ arity ≤ maxBoundArity ∧ raw.arity = arity + 1 := by
  unfold fit checkBoundArity
  by_cases ha : arity ≤ maxBoundArity
  · rw [if_pos ha]
    show (if raw.arity = arity + 1 then _ else _) = _ ↔ _
    by_cases hr : raw.arity = arity + 1 <;> simp [ha, hr]
  · rw [if_neg ha]
    exact ⟨nofun, fun h => absurd h.1 ha⟩

/-- A function is bound iff it takes one argument more than are left, and few enough are. -/
theorem bind_eq_ok_iff {raw f : Closure} {arity : Nat} {v : Value} {σ σ' : Store} :
    raw.bind arity v σ = (.ok f, σ') ↔
      (arity ≤ maxBoundArity ∧ raw.arity = arity + 1) ∧
      f = .bound σ.nextLabel arity v raw ∧ σ' = { σ with nextLabel := σ.nextLabel + 1 } := by
  rw [← fit_eq_ok_iff, bind_run]
  cases raw.fit arity with
  | error e =>
    constructor
    · rintro ⟨⟩
    · rintro ⟨⟨⟩, -⟩
  | ok _ =>
    constructor
    · rintro ⟨⟩
      exact ⟨rfl, rfl, rfl⟩
    · rintro ⟨-, rfl, rfl⟩
      rfl

theorem enter_of_length_ne {f : Closure} {ws : List Value} (h : ws.length ≠ f.arity) :
    f.enter ws = .error (.argumentCount f.arity ws.length) := by
  cases f with
  | code label params body => exact if_neg h
  | bound label arity first raw => exact if_neg h

theorem invoke_of_enter_error {f : Closure} {ws : List Value} {e : Fault} (h : f.enter ws = .error e)
    (depth : Nat) (σ : Store) : f.invoke (depth + 1) ws σ = (.error (.fault e), σ) := by
  unfold invoke
  rw [h]
  rfl

theorem invoke_of_enter_ok {f : Closure} {ws : List Value} {locals : List (LocalId × Value)}
    {body : Expr} (h : f.enter ws = .ok (locals, body)) (depth : Nat) (σ : Store) :
    f.invoke (depth + 1) ws σ = body.eval (invoke depth) ⟨locals, none⟩ σ := by
  unfold invoke
  rw [h]
  rfl

/-! ## All layers -/

/-- In a store that clients come to, what a lambda compiles to is its own code. -/
theorem closure_of_compile {lam : Label → Lambda} {l : Lambda} {σ σ' : Store} {fs : List Closure}
    {f : Closure} (h : Process (fun m => lam m.label = m) σ fs) (hl : lam l.label = l)
    (hc : l.compile σ = (.ok f, σ')) : f = l.closure f.label ∧ l.params.length ≤ maxArity := by
  rcases l.compile_cases σ with ⟨g, hg, hr⟩ | ⟨-, ⟨e, -, hr⟩ | ⟨hv, hr⟩⟩
  · cases hc.symm.trans hr
    have hown := h.settled.1.own l.label f hg
    rw [hl] at hown
    have hle := h.arity_le l.label f hg
    rw [hown] at hle
    exact ⟨hown, by simpa [Lambda.closure, arity] using hle⟩
  · cases hc.symm.trans hr
  · cases hc.symm.trans hr
    exact ⟨rfl, (Term.ite_eq_ok.mp hv).1⟩

namespace Fixing

variable {lam : Label → Lambda} {l : Lambda} {vs : List Value} {f : Closure}

theorem arity_le (h : Fixing lam l vs f) : f.arity ≤ maxArity := by
  cases h with
  | compiled hp hl hc =>
    obtain ⟨hf, hle⟩ := closure_of_compile hp hl hc
    rw [hf]
    simpa [Lambda.closure, arity] using hle
  | bind _ hb =>
    obtain ⟨⟨hle, -⟩, rfl, -⟩ := bind_eq_ok_iff.mp hb
    exact Nat.le_trans hle (Nat.sub_le _ _)

/-- Every value that is fixed takes the place of one parameter. -/
theorem length_add_arity (h : Fixing lam l vs f) : vs.length + f.arity = l.params.length := by
  induction h with
  | compiled hp hl hc =>
    rw [(closure_of_compile hp hl hc).1]
    simp [Lambda.closure, arity]
  | bind _ hb ih =>
    obtain ⟨⟨-, hraw⟩, rfl, -⟩ := bind_eq_ok_iff.mp hb
    rw [hraw] at ih
    rw [List.length_append, List.length_singleton, ← ih]
    simp only [arity]
    omega

/-- A call with the right number of arguments passes all layers: by induction on them, for any
arguments, since each layer puts its own value in front. -/
theorem enter_eq (h : Fixing lam l vs f) :
    ∀ ws : List Value, ws.length = f.arity →
      f.enter ws = .ok ((l.params.map Param.id).zip (vs ++ ws), l.body) := by
  induction h with
  | compiled hp hl hc =>
    intro ws hws
    rw [(closure_of_compile hp hl hc).1] at hws ⊢
    exact if_pos hws
  | @bind vs v raw f arity σ σ' _ hb ih =>
    intro ws hws
    obtain ⟨⟨-, hraw⟩, rfl, -⟩ := bind_eq_ok_iff.mp hb
    have hws : ws.length = arity := hws
    have hcons : (v :: ws).length = raw.arity := by rw [List.length_cons, hws, hraw]
    have hpass : enter (.bound σ.nextLabel arity v raw) ws = raw.enter (v :: ws) := if_pos hws
    rw [hpass, ih (v :: ws) hcons, List.append_assoc, List.singleton_append]

end Fixing

/-- For every function that is a compiled lambda with some values fixed, one after the other:

* it takes at most 16 arguments, and those with the fixed values are as many as the lambda has
  parameters;
* a call with any other number fails with this number and its own, and no code is entered;
* a call with the right number runs the body of the lambda, its parameters being the fixed values, the
  one fixed first coming first, and then the arguments.

And of any function the first argument can be fixed exactly if at most 15 are left then and it takes
one more. -/
theorem calls_of_fixing :
    (∀ (lam : Label → Lambda) (l : Lambda) (vs : List Value) (f : Closure), Fixing lam l vs f →
      (f.arity ≤ 16 ∧ vs.length + f.arity = l.params.length) ∧
      (∀ ws : List Value, ws.length ≠ f.arity →
        f.enter ws = .error (.argumentCount f.arity ws.length) ∧
        ∀ depth σ, f.invoke (depth + 1) ws σ =
          (.error (.fault (.argumentCount f.arity ws.length)), σ)) ∧
      ∀ ws : List Value, ws.length = f.arity →
        f.enter ws = .ok ((l.params.map Param.id).zip (vs ++ ws), l.body) ∧
        ∀ depth σ, f.invoke (depth + 1) ws σ =
          l.body.eval (invoke depth) ⟨(l.params.map Param.id).zip (vs ++ ws), none⟩ σ) ∧
    ∀ (raw : Closure) (arity : Nat) (v : Value) (σ : Store),
      (∃ f σ', raw.bind arity v σ = (.ok f, σ')) ↔ arity ≤ 15 ∧ raw.arity = arity + 1 := by
  refine ⟨fun lam l vs f h => ⟨⟨h.arity_le, h.length_add_arity⟩, fun ws hws => ?_, fun ws hws => ?_⟩,
    fun raw arity v σ => ⟨?_, fun h => ?_⟩⟩
  · have henter := enter_of_length_ne hws
    exact ⟨henter, invoke_of_enter_error henter⟩
  · have henter := h.enter_eq ws hws
    exact ⟨henter, invoke_of_enter_ok henter⟩
  · rintro ⟨f, σ', hb⟩
    exact (bind_eq_ok_iff.mp hb).1
  · exact ⟨_, _, bind_eq_ok_iff.mpr ⟨h, rfl, rfl⟩⟩

/-- Reads its three parameters as the digits of a number. -/
def digits : Lambda where
  label := 0
  params := [⟨0, "a", .int, .dummy⟩, ⟨1, "b", .int, .dummy⟩, ⟨2, "c", .int, .dummy⟩]
  body := .binary .add (.binary .mul (.binary .add (.binary .mul (.loc 0) (.int 10)) (.loc 1)) (.int 10))
    (.loc 2)

/-- Two digits are fixed, in two layers.  A call gives the third; with none it fails at the outer
layer.  The third can be fixed in turn only so that no argument is left. -/
theorem calls_of_fixing_digits :
    let f := Closure.bound 3 1 (.int 2) (.bound 2 2 (.int 1) (digits.closure 1))
    Fixing (fun _ => digits) digits [.int 1, .int 2] f ∧
    (∀ depth σ, f.invoke (depth + 1) [] σ = (.error (.fault (.argumentCount 1 0)), σ)) ∧
    (∀ depth σ, f.invoke (depth + 1) [.int 3] σ = (.ok (.int 123), σ)) ∧
    ∀ v σ, ¬ ∃ g σ', f.bind 1 v σ = (.ok g, σ') := by
  intro f
  have hcompile : digits.compile { nextLabel := 1 } =
      (.ok (digits.closure 1), { nextLabel := 2, functions := [(0, digits.closure 1)] }) := rfl
  have hraw : Fixing (fun _ => digits) digits [] (digits.closure 1) :=
    .compiled (.start rfl) rfl hcompile
  have hone : (digits.closure 1).bind 2 (.int 1) { nextLabel := 2 } =
      (.ok (.bound 2 2 (.int 1) (digits.closure 1)), { nextLabel := 3 }) := rfl
  have htwo : (bound 2 2 (.int 1) (digits.closure 1)).bind 1 (.int 2) { nextLabel := 3 } =
      (.ok f, { nextLabel := 4 }) := rfl
  have hf : Fixing (fun _ => digits) digits [.int 1, .int 2] f := (hraw.bind hone).bind htwo
  obtain ⟨hcalls, hbinds⟩ := calls_of_fixing
  obtain ⟨-, hfails, hruns⟩ := hcalls _ _ _ f hf
  refine ⟨hf, (hfails [] nofun).2, fun depth σ => ?_, fun v σ h => ?_⟩
  · exact ((hruns [.int 3] rfl).2 depth σ).trans rfl
  · exact absurd ((hbinds f 1 v σ).mp h).2 (by decide)

end Closure

end ClosureConversion
