import ClosureConversion.Proofs.Coupling
import ClosureConversion.Proofs.Process
import ClosureConversion.Session.Finalize

/-!
Clients of two machines.

`play_congr`: if each application of corresponding functions to the same data ends alike, with the
same failure or with results that are peers, then clients of the two machines see the same, whatever
they apply.  Which functions correspond may grow from one application to the next.
`play_coupled`: the same of coupled runs.
`instantiate_coupled`: if the code for two functions runs alike, then a client sees the same failure, or
the same of both functions.
-/

namespace ClosureConversion

variable {φ ψ S S' World : Type}

mutual

theorem Datum.map_lift (f : φ → ψ) : ∀ d : Datum Empty, d.lift.map f = d.lift
  | .void | .bool _ | .int _ | .number _ | .string _ => rfl
  | .array items => congrArg Datum.array (Datum.mapAll_lift f items)
  | .carrier l s fields => congrArg (Datum.carrier l s) (Datum.mapAll_lift f fields)

theorem Datum.mapAll_lift (f : φ → ψ) : ∀ ds : List (Datum Empty),
    mapAll f (mapAll Empty.elim ds) = mapAll Empty.elim ds
  | [] => rfl
  | d :: ds => congrArg₂ List.cons (Datum.map_lift f d) (Datum.mapAll_lift f ds)

end

/-- The functions in corresponding results correspond. -/
theorem Peers.function?_eq {R : φ → ψ → Prop} {v : Datum φ} {w : Datum ψ} (h : Peers R v w) :
    List.Forall₂ R v.function?.toList w.function?.toList := by
  cases h with
  | data d =>
    cases d with
    | function x => exact x.elim
    | _ => exact .nil
  | function hr => exact .cons hr .nil

variable [Callable φ] [Callable ψ]

section

variable {R : φ → ψ → Prop} {fs : List φ} {gs : List ψ} (hfs : List.Forall₂ R fs gs)
  (harity : ∀ f g, R f g → Callable.arity f = Callable.arity g)
  (hsame : ∀ f g f' g', R f g → R f' g' → Callable.same f f' = Callable.same g g')

include hfs hsame

theorem findIdx?_same {f : φ} {g : ψ} (h : R f g) :
    fs.findIdx? (Callable.same f) = gs.findIdx? (Callable.same g) := by
  induction hfs with
  | nil => rfl
  | @cons f' g' fs gs hfg _ ih =>
    rw [List.findIdx?_cons, List.findIdx?_cons, hsame f g f' g' h hfg, ih]

include harity

theorem Peers.view_eq {v : Datum φ} {w : Datum ψ} (h : Peers R v w) : v.view fs = w.view gs := by
  unfold Datum.view
  cases h with
  | data d => rw [Datum.map_lift, Datum.map_lift]
  | @function f g hr =>
    show Datum.function (Callable.arity f, _) = Datum.function (Callable.arity g, _)
    rw [harity f g hr, findIdx?_same hfs hsame hr]

end

/-- Clients of machines whose applications end alike see the same. -/
theorem play_congr {R : World → φ → ψ → Prop} {T : World → S → S' → Prop}
    {invoke : Nat → φ → List (Datum φ) → ExceptT Halt (StateM S) (Datum φ)}
    {invoke' : Nat → ψ → List (Datum ψ) → ExceptT Halt (StateM S') (Datum ψ)}
    (harity : ∀ W f g, R W f g → Callable.arity f = Callable.arity g)
    (hsame : ∀ W s t f g f' g', T W s t → R W f g → R W f' g' →
      Callable.same f f' = Callable.same g g')
    (hstep : ∀ W s t f g (ds : List (Datum Empty)) depth, T W s t → R W f g →
      ∃ W', (∀ f g, R W f g → R W' f g) ∧
        T W' (invoke depth f (ds.map Datum.lift) s).2 (invoke' depth g (ds.map Datum.lift) t).2 ∧
        Alike (Peers (R W')) (invoke depth f (ds.map Datum.lift) s).1
          (invoke' depth g (ds.map Datum.lift) t).1)
    (script : List Application) {W : World} {s : S} {t : S'} {fs : List φ} {gs : List ψ}
    (hfs : List.Forall₂ (R W) fs gs) (ht : T W s t) :
    play invoke script fs s = play invoke' script gs t := by
  induction script generalizing W s t fs gs with
  | nil => rfl
  | cons a as ih =>
    cases hf : fs[a.target]? with
    | none =>
      have hg : gs[a.target]? = none := by
        rw [List.getElem?_eq_none_iff] at hf ⊢
        exact hfs.length_eq ▸ hf
      rw [play_of_none _ hf, play_of_none _ hg]
      exact ih hfs ht
    | some f =>
      obtain ⟨hlt, rfl⟩ := List.getElem?_eq_some_iff.mp hf
      have hlt' : a.target < gs.length := hfs.length_eq ▸ hlt
      have hg : gs[a.target]? = some gs[a.target] := List.getElem?_eq_getElem hlt'
      obtain ⟨W', hmono, ht', hend⟩ :=
        hstep W s t _ _ a.arguments a.depth ht (hfs.get hlt hlt')
      have hfs' := hfs.imp hmono
      generalize hx : invoke a.depth _ (a.arguments.map Datum.lift) s = x at ht' hend
      generalize hy : invoke' a.depth _ (a.arguments.map Datum.lift) t = y at ht' hend
      obtain ⟨r, s'⟩ := x
      obtain ⟨r', t'⟩ := y
      rw [play_of_some _ hf as hx, play_of_some _ hg as hy]
      cases hend with
      | error h =>
        have htail := ih hfs' ht'
        simpa [Except.map, Except.toOption] using htail
      | ok h =>
        have hview := h.view_eq hfs' (harity W') fun f g f' g' => hsame W' s' t' f g f' g' ht'
        have htail := ih (List.rel_append hfs' h.function?_eq) ht'
        exact congrArg₂ List.cons (congrArg Except.ok hview) htail

/-! ## Coupled runs -/

/-- All data corresponds to itself, and functions to functions of as many parameters. -/
structure Coupling.Faithful (C : Coupling) : Prop where
  data : ∀ W (d : Datum Empty), C.values W d.lift d.lift
  peers : ∀ {W v w}, C.values W v w →
    Peers (fun f g : Closure => f.arity = g.arity ∧ C.values W (.function f) (.function g)) v w

section

variable {C : Coupling} (hC : C.Faithful)
  (hcalls : ∀ depth, CoupledCalls C (Closure.invoke depth) (Closure.invoke depth)) {W : C.World}
  {σ τ : Store}

include hC hcalls

/-- Clients that have corresponding functions see the same, whatever they apply. -/
theorem play_coupled (script : List Application) {f g : Closure}
    (h : f.arity = g.arity ∧ C.values W (.function f) (.function g)) (ht : C.ties W σ τ) :
    play Closure.invoke script [f] σ = play Closure.invoke script [g] τ := by
  refine play_congr
    (R := fun W (f g : Closure) => f.arity = g.arity ∧ C.values W (.function f) (.function g))
    (T := C.ties) ?_ ?_ ?_ script (.cons h .nil) ht
  · exact fun W f g h => h.1
  · exact fun W σ τ f g f' g' ht h h' => C.same ht h.2 h'.2
  · intro W σ τ f g ds depth ht h
    have hargs : List.Forall₂ (C.values W) (ds.map Datum.lift) (ds.map Datum.lift) := by
      rw [List.forall₂_map_left_iff, List.forall₂_map_right_iff]
      exact List.forall₂_same.mpr fun d _ => hC.data W d
    have hrun := hcalls depth W f g _ _ σ τ h.2 hargs ht
    generalize Closure.invoke depth f (ds.map Datum.lift) σ = x,
      Closure.invoke depth g (ds.map Datum.lift) τ = y at hrun
    cases hrun with
    | error hs ht => exact ⟨_, fun _ _ h => ⟨h.1, C.mono hs h.2⟩, ht, .error _⟩
    | ok hs ht hr => exact ⟨_, fun _ _ h => ⟨h.1, C.mono hs h.2⟩, ht, .ok (hC.peers hr)⟩

/-- Code that runs alike is instantiated alike. -/
theorem instantiate_coupled {e e' : Expr} {a b : Inputs} {depth : Nat}
    (hv : e.verify σ.isCompiled [] true = .ok ()) (hv' : e'.verify τ.isCompiled [] true = .ok ())
    (hrun : Coupled C C.values W (e.eval (Closure.invoke depth) ⟨[], some a⟩ σ)
      (e'.eval (Closure.invoke depth) ⟨[], some b⟩ τ)) :
    (∃ W' err σ₁ τ₁, C.ties W' σ₁ τ₁ ∧
        (Conversion.residual e).instantiate depth a σ = (.error err, σ₁) ∧
        (Conversion.residual e').instantiate depth b τ = (.error err, τ₁)) ∨
      ∃ W' f g σ₁ τ₁, C.ties W' σ₁ τ₁ ∧
        (Conversion.residual e).instantiate depth a σ = (.ok f, σ₁) ∧
        (Conversion.residual e').instantiate depth b τ = (.ok g, τ₁) ∧
        ∀ script, play Closure.invoke script [f] σ₁ = play Closure.invoke script [g] τ₁ := by
  have heval : e.evaluate depth a σ = e.eval (Closure.invoke depth) ⟨[], some a⟩ σ := by
    rw [Term.evaluate_run, hv]
  have heval' : e'.evaluate depth b τ = e'.eval (Closure.invoke depth) ⟨[], some b⟩ τ := by
    rw [Term.evaluate_run, hv']
  rw [← heval, ← heval'] at hrun
  generalize hx : e.evaluate depth a σ = x, hy : e'.evaluate depth b τ = y at hrun
  cases hrun with
  | error _ ht => exact .inl ⟨_, _, _, _, ht, Outcome.bind_error hx, Outcome.bind_error hy⟩
  | ok _ ht hr =>
    cases hC.peers hr with
    | function h =>
      exact .inr ⟨_, _, _, _, _, ht, Outcome.bind_ok hx, Outcome.bind_ok hy,
        fun script => play_coupled hC hcalls script h ht⟩
    | data d =>
      cases d with
      | function x => exact x.elim
      | _ => exact .inl ⟨_, _, _, _, ht, Outcome.bind_ok hx, Outcome.bind_ok hy⟩

end

end ClosureConversion
