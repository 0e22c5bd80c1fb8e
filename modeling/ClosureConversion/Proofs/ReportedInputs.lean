import ClosureConversion.Proofs.LexicalScoping
import ClosureConversion.Proofs.Twins
import ClosureConversion.Proofs.Verified

/-!
A finished session reports all inputs that matter.

`depends_only_on_reported`: instantiated with inputs that agree on the positions and the names that
the session reports, its result fails alike, or gives two functions of which a client sees the same.
The carriers of the two functions may still hold different argument vectors.
-/

namespace ClosureConversion

/-- No lambda of the code is compiled yet. -/
theorem Emitted.follows {vars : String → Ty → Prop} {t : ScopeTable} {E : Images} {σ : Store}
    (he : Emitted vars t E σ) : σ.Follows E := by
  intro id im l body hid hcode f hf
  rw [he.lazy id im l body hid hcode] at hf
  cases hf

namespace Session

variable {vars : String → Ty → Prop} {s : Session} {σ : Store} {offers : List (ScopeId × Expr)}
  {around : ScopeId → List ScopeId} {decl : LocalId → Option (ScopeId × Ty)} {E : Images}

/-! ## The code of a finished session -/

theorem Known.watched (hk : s.Known vars offers around decl) (he : Emitted vars s.closed E σ) :
    E.Watched vars := by
  have env : ∀ {id im}, E id = some im → ∃ sc, s.closed.get? id = some sc ∧
      im.scope.body = sc.body ∧ im.scope.env = sc.env := by
    intro id im hid
    obtain ⟨sc, hsc, -, hbody, hcar⟩ := he.exists_scope hid
    exact ⟨sc, hsc, hbody, by simp only [Scope.env, Scope.env?, hcar]⟩
  constructor
  case sound => exact he.sound
  case inj => exact he.inj
  case carrier => exact fun id im c hid hc => hk.carrier_not_mem he hid hc
  case vector => exact fun id im c x hid hc => hk.ty_of_args he hid hc
  case notes =>
    intro id im hid
    obtain ⟨sc, hsc, hbody, henv⟩ := env hid
    have hb := hk.captured.balanced id sc hsc
    rw [hbody]
    refine ⟨fun i hi => ?_, fun c child i huse hchild hi => ?_⟩
    · rw [henv, hb.indices]
      exact .inl hi
    · obtain ⟨csc, hcsc, -, hcenv⟩ := env hchild
      rw [henv, hb.indices]
      refine .inr ⟨c, huse, ?_⟩
      rwa [ScopeTable.envOf_of_get? hcsc, ← hcenv]

/-- The positions that a finished session reports are those that its top scope notes. -/
theorem mem_used_indices_iff (hk : s.Known vars offers around decl) {root : ScopeId} {plan : Plan}
    {used : InputUse} (hr : s.roots = [root])
    (hb : Plan.build s.closed root {} = (.ok plan, used)) {sc : Scope}
    (hsc : s.closed.get? root = some sc) (i : Nat) :
    i ∈ used.indices ↔ i ∈ sc.env.indices := by
  obtain ⟨x, hx, -, hu⟩ := noted_finalize hk.nested (i ∈ ·.indices) (i ∈ ·.indices)
    (fun u env => by simp [InputUse.add, or_comm]) (SortedSet.not_mem_empty i)
    (SortedSet.not_mem_empty i)
    (fun id sc hsc c huse hi =>
      ((hk.captured.balanced id sc hsc).indices i).mpr (.inr ⟨c, huse, hi⟩)) hr hb
  obtain rfl := Option.some.inj (hsc.symm.trans hx)
  exact hu

/-- How the session of a front end was finished. -/
theorem FrontEnd.finalizing {σ' : Store} {fin : Finished} (h : FrontEnd vars s σ offers)
    (hf : s.finalize σ = (.ok fin, σ')) :
    ∃ around decl root plan, s.Known vars offers around decl ∧ s.roots = [root] ∧
      Plan.build s.closed root {} = (.ok plan, fin.used) ∧
      Finalizing vars s.closed root (.ok fin.result, σ') := by
  obtain ⟨around, decl, E, hk, hi⟩ := h.imaged
  obtain ⟨hs, root, plan, hr, hbuild, hconv⟩ := finalize_eq_ok hf
  obtain ⟨plan', used, hbuild', hp, -⟩ := finalize_eq_convertRoot hk hs hr σ
  obtain rfl : plan' = plan := by
    rw [hbuild] at hbuild'
    cases hbuild'
    rfl
  have hres := finalizing_convertRoot hk hi (hr ▸ List.mem_singleton_self root) hp
  rw [hconv] at hres
  exact ⟨around, decl, root, plan', hk, hr, hbuild, hres⟩

/-! ## Reading the inputs -/

variable {call : Closure → List Value → EvalM Value} {a b : PlainInputs} {seen : SortedSet Nat}

theorem supplies_root {x : Slot} {e : Expr} (h : Frame.root.Gives x e)
    (hlen : a.arguments.length = b.arguments.length)
    (hindex : ∀ i ∈ seen, a.arguments[i]? = b.arguments[i]?)
    (hname : ∀ name, x.value = .var name → a.named.lookup name = b.named.lookup name)
    (W : (twins E).World) (hσ : σ.Follows E) :
    Coupled (twins E) (fun _ v w => Supplies E seen x (v, w)) W
      (e.eval call ⟨[], some a.toInputs⟩ σ) (e.eval call ⟨[], some b.toInputs⟩ σ) := by
  cases h with
  | args hv =>
    refine .pure ⟨rfl, hσ⟩ ⟨fun _ => ?_, fun hne => absurd hv hne⟩
    exact ⟨a.arguments, b.arguments, (Datum.lift_array _).symm, (Datum.lift_array _).symm, hlen,
      hindex⟩
  | @var _ name hv =>
    have hlook : ∀ inputs : PlainInputs, inputs.toInputs.named.lookup name =
        (inputs.named.lookup name).map Datum.lift := fun inputs => Lists.lookup_map_snd _ _ name
    have hget : ∀ inputs : PlainInputs,
        Context.getInputs ⟨[], some inputs.toInputs⟩ σ = (.ok inputs.toInputs, σ) := fun _ => rfl
    unfold Term.eval
    rw [Outcome.bind_ok (hget a), Outcome.bind_ok (hget b), hlook, hlook, hname name hv]
    cases b.named.lookup name with
    | none => exact .fail _ ⟨rfl, hσ⟩
    | some d =>
      refine .ofExcept ⟨rfl, hσ⟩ ((Akin.data d).checked ?_ rfl)
      exact .of_twin (fun h => by cases hv.symm.trans h) (.data d)

/-- Code whose runs make twins is instantiated alike. -/
theorem instantiate_residual (hw : E.Watched vars) {e : Expr} {a b : Inputs} {depth : Nat}
    {W : (twins E).World} (hverify : e.verify σ.isCompiled [] true = .ok ())
    (hrun : Coupled (twins E) (fun _ => Twin E) W
      (e.eval (Closure.invoke depth) ⟨[], some a⟩ σ) (e.eval (Closure.invoke depth) ⟨[], some b⟩ σ)) :
    (∃ err σ₁, (Conversion.residual e).instantiate depth a σ = (.error err, σ₁) ∧
        (Conversion.residual e).instantiate depth b σ = (.error err, σ₁)) ∨
      ∃ f g σ₁, (Conversion.residual e).instantiate depth a σ = (.ok f, σ₁) ∧
        (Conversion.residual e).instantiate depth b σ = (.ok g, σ₁) ∧
        ∀ script, play Closure.invoke script [f] σ₁ = play Closure.invoke script [g] σ₁ := by
  rcases instantiate_coupled (twins_faithful E) (coupledCalls_invoke hw) hverify hverify hrun with
    ⟨_, err, σ₁, τ₁, ⟨rfl, -⟩, ha, hb⟩ | ⟨_, f, g, σ₁, τ₁, ⟨rfl, -⟩, ha, hb, hplay⟩
  · exact .inl ⟨err, _, ha, hb⟩
  · exact .inr ⟨f, g, _, ha, hb, hplay⟩

/-- Instantiated with inputs that agree on what the session reports, the result of a front end's run
fails in the same way, or gives two functions of which a client sees the same, whatever it applies
them to. -/
theorem depends_only_on_reported {vars : String → Ty → Prop} {s : Session} {σ σ' : Store}
    {offers : List (ScopeId × Expr)} {fin : Finished} (h : FrontEnd vars s σ offers)
    (hf : s.finalize σ = (.ok fin, σ')) (a b : PlainInputs)
    (hlen : a.arguments.length = b.arguments.length)
    (hindex : ∀ i ∈ fin.used.indices, a.arguments[i]? = b.arguments[i]?)
    (hname : ∀ name ∈ fin.used.names, a.named.lookup name = b.named.lookup name) (depth : Nat) :
    (∃ e σ₁, fin.result.instantiate depth a.toInputs σ' = (.error e, σ₁) ∧
        fin.result.instantiate depth b.toInputs σ' = (.error e, σ₁)) ∨
      ∃ f g σ₁, fin.result.instantiate depth a.toInputs σ' = (.ok f, σ₁) ∧
        fin.result.instantiate depth b.toInputs σ' = (.ok g, σ₁) ∧
        ∀ script, play Closure.invoke script [f] σ₁ = play Closure.invoke script [g] σ₁ := by
  obtain ⟨around, decl, root, plan, hk, hr, hbuild, hres⟩ := h.finalizing hf
  obtain ⟨result, used⟩ := fin
  cases hres with
  | @function f => exact .inr ⟨f, f, σ', rfl, rfl, fun _ => rfl⟩
  | @lambda _ _ f => exact .inr ⟨f, f, σ', rfl, rfl, fun _ => rfl⟩
  | @residual c e im E _ he hE hc hst =>
    have hw := hk.watched he
    obtain ⟨sc, hsc, -, -, hcar⟩ := he.exists_scope hE
    have henv : sc.env = c.env := Scope.env_of_carried (hcar.symm.trans hc)
    have hgive : ∀ c', im.scope.carried = some c' → ∀ x ∈ c'.env.slots, ∀ e, Frame.root.Gives x e →
        ∀ W σ, σ.Follows E → Coupled (twins E) (fun _ v w => Supplies E c'.env.indices x (v, w)) W
          (e.eval (Closure.invoke depth) ⟨[], some a.toInputs⟩ σ)
          (e.eval (Closure.invoke depth) ⟨[], some b.toInputs⟩ σ) := by
      intro c' hc' x hx e he W σ hσ
      obtain rfl := Option.some.inj (hc.symm.trans hc')
      refine supplies_root he hlen (fun i hi => hindex i ?_) (fun name hv => hname name ?_) W hσ
      · exact (mem_used_indices_iff hk hr hbuild hsc i).mpr (henv ▸ hi)
      · have hcon := Env.contains_of_mem (henv ▸ hx : x ∈ sc.env.slots)
        rw [hv] at hcon
        exact (mem_used_names_iff hk hr hbuild hsc name).mpr (mem_names_of_contains hk hsc hcon)
    have hrun := coupled_stands hw () he.follows hE hst hgive
    exact instantiate_residual hw (hst.verify (he.sound root im hE).2 σ'.isCompiled) hrun

/-- Scope 2, inside scope 1, has asked for position 1 of the arguments and for the variable `k`. -/
def selector : List Command :=
  [.enter .dummy, .begin, .enter .dummy, .begin, .argument 1 .int, .var "k" .int]

/-- The first function gives the second, which adds position 1 of the arguments and `k`. -/
def selectorRun : (List (Except ConversionError Answer) × Session) × Store :=
  run {} (selector ++ [.close (.binary .add (.arg .args 1 .int) (.var "k" .int)) true] ++
    [.close (.placeholder 2) false]) {}

/-- The session reports position 1 and `k`, and its result can be instantiated. -/
def selects : Except ConversionError Finished × Store → Bool
  | (.ok fin, σ) => fin.used.indices.toList == [1] && fin.used.names.toList == ["k"] &&
    (fin.result.instantiate 1 (PlainInputs.toInputs ⟨[.int 0, .int 2], [("k", .int 5)]⟩) σ).1.isOk
  | _ => false

theorem frontEnd_selectorRun :
    ∃ offers, FrontEnd (fun _ _ => True) selectorRun.1.2 selectorRun.2 offers := by
  have hnew : FrontEnd (fun _ _ => True) {} {} [] := .new Store.valid_empty
  have hfree : ∀ c ∈ selector, ∀ s offers, Obeys (fun _ _ => True) s offers c := by
    simp [selector, Obeys]
  have h₁ := (hnew.run hfree).run_concat
    (.close (.binary .add (.arg .args 1 .int) (.var "k" .int)) true)
    (obeys_close 2 (by decide +kernel)
      (.binary (.given (mem_offers (by decide +kernel))) (.given (mem_offers (by decide +kernel)))))
  have h₂ := h₁.run_concat (.close (.placeholder 2) false)
    (obeys_close 1 (by decide +kernel) (.given (mem_offers (by decide +kernel))))
  rw [selectorRun]
  exact ⟨_, h₂⟩

/-- It does not matter what stands in position 0, nor what `z` is. -/
theorem depends_only_on_reported_selector :
    ∃ offers fin σ', FrontEnd (fun _ _ => True) selectorRun.1.2 selectorRun.2 offers ∧
      selectorRun.1.2.finalize selectorRun.2 = (.ok fin, σ') ∧
      fin.used.indices.toList = [1] ∧ fin.used.names.toList = ["k"] ∧
      ∃ f g σ₁,
        fin.result.instantiate 1 (PlainInputs.toInputs ⟨[.int 0, .int 2], [("k", .int 5)]⟩) σ' =
          (.ok f, σ₁) ∧
        fin.result.instantiate 1
          (PlainInputs.toInputs ⟨[.string "x", .int 2], [("z", .int 1), ("k", .int 5)]⟩) σ' =
          (.ok g, σ₁) ∧
        ∀ script, play Closure.invoke script [f] σ₁ = play Closure.invoke script [g] σ₁ := by
  obtain ⟨offers, h⟩ := frontEnd_selectorRun
  have hok : selects (selectorRun.1.2.finalize selectorRun.2) = true := by decide +kernel
  cases hf : selectorRun.1.2.finalize selectorRun.2 with
  | mk r σ' =>
    rw [hf] at hok
    cases r with
    | error e => cases hok
    | ok fin =>
      simp only [selects, Bool.and_eq_true, beq_iff_eq] at hok
      obtain ⟨⟨hindices, hnames⟩, hinst⟩ := hok
      refine ⟨offers, fin, σ', h, rfl, hindices, hnames, ?_⟩
      rcases depends_only_on_reported h hf ⟨[.int 0, .int 2], [("k", .int 5)]⟩
        ⟨[.string "x", .int 2], [("z", .int 1), ("k", .int 5)]⟩ rfl
        (fun i hi => by
          have hi : i ∈ fin.used.indices.toList := hi
          rw [hindices, List.mem_singleton] at hi
          subst hi
          rfl)
        (fun name hname => by
          have hname : name ∈ fin.used.names.toList := hname
          rw [hnames, List.mem_singleton] at hname
          subst hname
          rfl) 1 with ⟨e, σ₁, herror, -⟩ | hsame
      · rw [herror] at hinst
        cases hinst
      · exact hsame

end Session

end ClosureConversion
