import ClosureConversion.Proofs.Counterparts
import ClosureConversion.Proofs.ReportedInputs

/-!
When scopes are compiled cannot be observed.

A front end may ask for a scope that captures nothing to be compiled at once when it is closed.
`Session.eagerness_unobservable`: two runs that differ in what they ask for record the same scopes and
report the same inputs, and clients of their results see the same.
-/

namespace ClosureConversion

namespace Session

variable {vars : String → Ty → Prop} {s t : Session} {σ τ : Store}
  {offers offers' : List (ScopeId × Expr)} {around around' : ScopeId → List ScopeId}
  {decl decl' : LocalId → Option (ScopeId × Ty)} {E F : Images}

theorem proper (hk : s.Known vars offers around decl) (he : Emitted vars s.closed E σ) :
    E.Proper vars where
  sound := he.sound
  inj := he.inj
  carrier _ _ _ hid hc := hk.carrier_not_mem he hid hc
  captured _ _ _ _ hid hc hx _ hv := hk.captured_not_mem he hid hc hx hv

/-- Two codes of parallel tables mirror each other. -/
theorem mirror (hk : s.Known vars offers around decl) (hk' : t.Known vars offers' around' decl')
    (hp : s.closed.Parallel t.closed) (he : Emitted vars s.closed E σ)
    (he' : Emitted vars t.closed F τ) : E.Mirror vars F where
  left := proper hk he
  right := proper hk' he'
  scope id im im' hid hid' := by
    obtain ⟨sc, alive, compiled, hsc, him⟩ := he.scope id im hid
    obtain ⟨sc', alive', compiled', hsc', him'⟩ := he'.scope id im' hid'
    obtain ⟨_, hsome, ho⟩ := hp.exists_scope hsc
    obtain rfl := Option.some.inj (hsc'.symm.trans hsome)
    have hid := congrArg Scope.id ho
    have hparams := congrArg Scope.params ho
    have hbody := congrArg Scope.body ho
    have henv := Scope.env?_eq ho
    rw [him, him']
    exact ⟨hid, hparams, henv, hbody⟩

/-- The inputs that two parallel sessions report. -/
theorem used_eq (hk : s.Known vars offers around decl) (hk' : t.Known vars offers' around' decl')
    (hp : s.closed.Parallel t.closed) {root : ScopeId} {plan plan' : Plan} {used used' : InputUse}
    (hr : s.roots = [root]) (hr' : t.roots = [root])
    (hb : Plan.build s.closed root {} = (.ok plan, used))
    (hb' : Plan.build t.closed root {} = (.ok plan', used')) : used = used' := by
  obtain ⟨sc, hsc⟩ := (hk.nested.root root (hr ▸ List.mem_singleton_self root)).1.get?
  obtain ⟨sc', hsc', ho⟩ := hp.exists_scope hsc
  have henv : sc.env = sc'.env := by
    unfold Scope.env
    rw [Scope.env?_eq ho]
  have hindices : used.indices = used'.indices := SortedSet.ext_mem fun i => by
    rw [mem_used_indices_iff hk hr hb hsc, mem_used_indices_iff hk' hr' hb' hsc', henv]
  have hnames : used.names = used'.names := SortedSet.ext_mem fun name => by
    rw [mem_used_names_iff hk hr hb hsc, mem_used_names_iff hk' hr' hb' hsc', henv]
  cases used
  cases used'
  exact congrArg₂ InputUse.mk hindices hnames

end Session

/-- At the top both codes read the same inputs. -/
theorem apace_root {E F : Images} {A : Worlds → Prop}
    {call call' : Closure → List Value → EvalM Value} {inputs : PlainInputs} {x : Slot}
    {e e' : Expr} (h : Frame.root.Gives x e) (h' : Frame.root.Gives x e') :
    Apace (counterparts E F) A (e.eval call ⟨[], some inputs.toInputs⟩)
      (e'.eval call' ⟨[], some inputs.toInputs⟩) := by
  cases h with
  | args hv =>
    cases h' with
    | var hv' => exact absurd (hv.symm.trans hv') nofun
    | args _ =>
      refine fun W σ τ _ ht => Coupled.pure (C := counterparts E F) ht ?_
      exact Datum.lift_array inputs.arguments ▸ Counterpart.data (.array inputs.arguments)
  | @var _ name hv =>
    cases h' with
    | args hv' => exact absurd (hv.symm.trans hv') nofun
    | var hv' =>
      obtain rfl := Capture.var.inj (hv.symm.trans hv')
      intro W σ τ _ ht
      have hget : ∀ σ, Context.getInputs ⟨[], some inputs.toInputs⟩ σ = (.ok inputs.toInputs, σ) :=
        fun _ => rfl
      have hlook : inputs.toInputs.named.lookup name = (inputs.named.lookup name).map Datum.lift :=
        Lists.lookup_map_snd _ _ name
      unfold Term.eval
      rw [Outcome.bind_ok (hget σ), Outcome.bind_ok (hget τ), hlook]
      cases inputs.named.lookup name with
      | none => exact .fail _ ht
      | some d => exact .ofExcept ht ((counterparts E F).checked (W := W) (Counterpart.data d) x.ty)

namespace Session

variable {vars : String → Ty → Prop} {σ₀ τ₀ σ τ σ' τ' : Store} {s t : Session}
  {offers offers' : List (ScopeId × Expr)} {fin fin' : Finished}

/-- Two runs of a front end that differ in which scopes are to be compiled at once, and in which every
scope is closed and the session finished, have the same scopes, with layouts that have the same numbers
if the runs number shapes consistently; they report the same inputs, and both a function or both an
expression; and for all inputs they fail in the same way, or give two functions of which a client sees
the same, whatever it applies them to. -/
theorem eagerness_unobservable (h : Rerun vars σ₀ τ₀ s σ offers t τ offers')
    (hf : s.finalize σ = (.ok fin, σ')) (hf' : t.finalize τ = (.ok fin', τ')) :
    (∀ id, (s.closed.get? id).map Scope.outline = (t.closed.get? id).map Scope.outline) ∧
      (σ₀.shapes = τ₀.shapes ∨ σ.shapes.Consistent τ.shapes →
        ∀ id, (s.closed.get? id).map Scope.symbolic = (t.closed.get? id).map Scope.symbolic) ∧
      fin.used = fin'.used ∧ fin.result.isResidual = fin'.result.isResidual ∧
      ∀ (inputs : PlainInputs) (depth : Nat),
        (∃ e σ₁ τ₁, fin.result.instantiate depth inputs.toInputs σ' = (.error e, σ₁) ∧
            fin'.result.instantiate depth inputs.toInputs τ' = (.error e, τ₁)) ∨
          ∃ f g σ₁ τ₁, fin.result.instantiate depth inputs.toInputs σ' = (.ok f, σ₁) ∧
            fin'.result.instantiate depth inputs.toInputs τ' = (.ok g, τ₁) ∧
            ∀ script, play Closure.invoke script [f] σ₁ = play Closure.invoke script [g] τ₁ := by
  have hp := h.parallel
  obtain ⟨around, decl, root, plan, hk, hr, hb, hres⟩ := h.frontEnd.1.finalizing hf
  obtain ⟨around', decl', root', plan', hk', hr', hb', hres'⟩ := h.frontEnd.2.finalizing hf'
  obtain rfl : root = root' := List.singleton_inj.mp (hr.symm.trans (hp.roots.trans hr'))
  obtain ⟨E, im, e, σ₁, he, hE, hst, hkind, hinst⟩ := exists_residual hres
  obtain ⟨F, im', e', τ₁, he', hF, hst', hkind', hinst'⟩ := exists_residual hres'
  have hM := mirror hk hk' hp.closed he he'
  have hsc := hM.scope root im im' hE hF
  have hused := used_eq hk hk' hp.closed hr hr' hb hb'
  refine ⟨hp.closed, h.symbolic_eq, hused, ?_, fun inputs depth => ?_⟩
  · have hsome : ∀ sc : Scope, sc.env?.isSome = sc.carried.isSome := fun _ => Option.isSome_map
    rw [hkind, hkind', ← hsome, ← hsome, hsc.env]
  · have hv := hst.verify (he.sound root im hE).2 σ₁.isCompiled
    have hv' := hst'.verify (he'.sound root im' hF).2 τ₁.isCompiled
    have hrun : Coupled (counterparts E F) (Counterpart E F) ⟨.start E, .start F, 0⟩
        (e.eval (Closure.invoke depth) ⟨[], some inputs.toInputs⟩ σ₁)
        (e'.eval (Closure.invoke depth) ⟨[], some inputs.toInputs⟩ τ₁) :=
      apace_stands hM hE hF hst hst' (A := fun _ => True) (fun _ _ => trivial)
        (fun x e e' hx hx' => apace_root hx hx') _ σ₁ τ₁ trivial ⟨he.tracks, he'.tracks⟩
    rw [hinst, hinst']
    rcases instantiate_coupled (counterparts_faithful E F) (coupledCalls_counterparts hM) hv hv' hrun
      with ⟨_, err, σ₂, τ₂, -, ha, hb⟩ | ⟨_, f, g, σ₂, τ₂, -, ha, hb, hplay⟩
    · exact .inl ⟨err, σ₂, τ₂, ha, hb⟩
    · exact .inr ⟨f, g, σ₂, τ₂, ha, hb, hplay⟩

/-- Scope 2, inside scope 1, has looked up its parameter `y`; scope 1 has looked up `x` and asked for
position 0 of the arguments. -/
def doubler : List Command :=
  [.enter .dummy, .declare .int "x" .dummy, .begin, .lookup "x", .argument 0 .int, .enter .dummy,
    .declare .int "y" .dummy, .begin, .lookup "y"]

/-- Scope 2 is closed, and doubles `y`. -/
def closeDoubler (eager : Bool) : (Except ConversionError Answer × Session) × Store :=
  (run {} doubler {}).1.2.exec (.close (.binary .mul (.loc 1) (.int 2)) eager) (run {} doubler {}).2

/-- What scope 1 is given for scope 2. -/
def doublerToken (eager : Bool) : Expr :=
  match (closeDoubler eager).1.1 with
  | .ok (.expr e) => e
  | _ => .void

/-- What the scopes were given until scope 2 is closed. -/
def doublerOffers (eager : Bool) : List (ScopeId × Expr) :=
  offersRun {} {} [] doubler ++ credit (.close (.binary .mul (.loc 1) (.int 2)) eager)
    (closeDoubler eager).1.1 (closeDoubler eager).1.2

theorem mem_doublerOffers (eager : Bool) : (1, doublerToken eager) ∈ doublerOffers eager := by
  have hcur : (closeDoubler eager).1.2.current? = some 1 := by cases eager <;> decide +kernel
  have hexpr : (match (closeDoubler eager).1.1 with | .ok (.expr _) => true | _ => false) = true := by
    cases eager <;> decide +kernel
  refine List.mem_append_right _ ?_
  unfold credit doublerToken
  rw [hcur]
  split at hexpr
  · next h =>
    rw [h]
    exact List.mem_singleton_self _
  · cases hexpr

/-- Both sessions can be finished, scope 2 is compiled in the first only, and the result of that one can
be instantiated. -/
def compiledOnlyIn (s : Session) (σ : Store) (t : Session) (τ : Store) : Bool :=
  match s.finalize σ, t.finalize τ with
  | (.ok fin, σ'), (.ok _, _) => ((s.closed.get? 2).bind Scope.compiled).isSome &&
    !((t.closed.get? 2).bind Scope.compiled).isSome &&
    (fin.result.instantiate 1 (PlainInputs.toInputs ⟨[.int 3], []⟩) σ').1.isOk
  | _, _ => false

/-- In the one run scope 2 is compiled at once, and in the other it is not.  Scope 1 adds the double of
`x` and position 0 of the arguments. -/
theorem eagerness_unobservable_doubler :
    ∃ s σ offers t τ offers' fin σ' fin' τ',
      Rerun (fun _ _ => True) {} {} s σ offers t τ offers' ∧ s.finalize σ = (.ok fin, σ') ∧
      t.finalize τ = (.ok fin', τ') ∧ ((s.closed.get? 2).bind Scope.compiled).isSome = true ∧
      ((t.closed.get? 2).bind Scope.compiled).isSome = false ∧
      (∀ id, (s.closed.get? id).map Scope.symbolic = (t.closed.get? id).map Scope.symbolic) ∧
      fin.used = fin'.used ∧ fin.result.isResidual = fin'.result.isResidual ∧
      ∃ f g σ₁ τ₁, fin.result.instantiate 1 (PlainInputs.toInputs ⟨[.int 3], []⟩) σ' = (.ok f, σ₁) ∧
        fin'.result.instantiate 1 (PlainInputs.toInputs ⟨[.int 3], []⟩) τ' = (.ok g, τ₁) ∧
        ∀ script, play Closure.invoke script [f] σ₁ = play Closure.invoke script [g] τ₁ := by
  have hnew : Rerun (fun _ _ => True) {} {} {} {} [] {} {} [] :=
    .new Store.valid_empty Store.valid_empty
  have h₀ := hnew.run doubler (by simp [doubler, Obeys]) (by simp [doubler])
  have hinner : FrontBody (fun e => (2, e) ∈ offersRun {} {} [] doubler)
      (.binary .mul (.loc 1) (.int 2)) :=
    .binary (.given (mem_offers (by decide +kernel))) (.plain rfl (by simp [Term.children]))
  have h₁ := h₀.exec
    (show Command.symbolic (.close (.binary .mul (.loc 1) (.int 2)) true) =
      Command.symbolic (.close (.binary .mul (.loc 1) (.int 2)) false) from rfl)
    (obeys_close 2 (by decide +kernel) hinner) (obeys_close 2 (by decide +kernel) hinner)
    (fun body eager e => by cases e; decide +kernel) (fun body eager e => by cases e; decide +kernel)
  have h₁ : Rerun (fun _ _ => True) {} {} (closeDoubler true).1.2 (closeDoubler true).2
      (doublerOffers true) (closeDoubler false).1.2 (closeDoubler false).2 (doublerOffers false) := by
    unfold doublerOffers closeDoubler
    exact h₁
  have houter : ∀ eager, FrontBody (fun e => (1, e) ∈ doublerOffers eager)
      (.binary .add (.call (doublerToken eager) [.loc 0]) (.arg .args 0 .int)) := by
    intro eager
    have hloc : (1, .loc 0) ∈ doublerOffers eager := mem_offers (by cases eager <;> decide +kernel)
    have harg : (1, .arg .args 0 .int) ∈ doublerOffers eager :=
      mem_offers (by cases eager <;> decide +kernel)
    refine .plain rfl (List.forall_mem_cons.mpr ⟨.plain rfl ?_, ?_⟩)
    · exact List.forall_mem_cons.mpr ⟨.given (mem_doublerOffers eager),
        List.forall_mem_singleton.mpr (.given hloc)⟩
    · exact List.forall_mem_singleton.mpr (.given harg)
  have htoken : ∀ eager, (doublerToken eager).symbolic = .placeholder 2 := fun eager =>
    eq_of_sameLeaf (by cases eager <;> decide +kernel)
  have hsame : ∀ eager, Command.symbolic
      (.close (.binary .add (.call (doublerToken eager) [.loc 0]) (.arg .args 0 .int)) false) =
      .close (.binary .add (.call (.placeholder 2) [.loc 0]) (.arg .args 0 .int)) false := by
    intro eager
    simp only [Command.symbolic, Term.symbolic, Term.symbolicAll, htoken]
  have h₂ := h₁.exec ((hsame true).trans (hsame false).symm)
    (obeys_close 1 (by decide +kernel) (houter true))
    (obeys_close 1 (by decide +kernel) (houter false))
    (fun body eager e => by cases e; decide +kernel) (fun body eager e => by cases e; decide +kernel)
  obtain ⟨s, σ, offers, t, τ, offers', h, htest⟩ : ∃ s σ offers t τ offers',
      Rerun (fun _ _ => True) {} {} s σ offers t τ offers' ∧
      compiledOnlyIn s σ t τ = true := ⟨_, _, _, _, _, _, h₂, by decide +kernel⟩
  unfold compiledOnlyIn at htest
  split at htest
  · next fin σ' fin' τ' hf hf' =>
    simp only [Bool.and_eq_true, Bool.not_eq_true'] at htest
    obtain ⟨⟨hs, ht⟩, hok⟩ := htest
    obtain ⟨-, hsymbolic, hused, hkind, hplay⟩ := eagerness_unobservable h hf hf'
    rcases hplay ⟨[.int 3], []⟩ 1 with ⟨e, σ₁, τ₁, he, -⟩ | hplay
    · rw [he] at hok
      cases hok
    · exact ⟨s, σ, offers, t, τ, offers', fin, σ', fin', τ', h, hf, hf', hs, ht,
        hsymbolic (.inl rfl), hused, hkind, hplay⟩
  · cases htest

end Session

end ClosureConversion
