import ClosureConversion.Proofs.Protocol
import ClosureConversion.Proofs.Simulation

/-!
Closure conversion preserves lexical scoping.

`preserves_lexical_scoping`: when the session of a front end is finished, its result can be
instantiated with all inputs that bind the variables it names, and a client sees the same of the
function obtained as of the direct reading of the scope tree.
-/

namespace ClosureConversion

/-! ## The code of a finished session -/

/-- The world in which nothing has run: only scopes that are compiled have a function. -/
def World.start (E : Images) : World
  | .shared id => (E id).bind fun im =>
      match im.code with
      | .function f => some f.label
      | .lambda .. => none
  | .fresh _ => none

theorem World.of_start {E : Images} {i : Identity} {l : Label} (h : World.start E i = some l) :
    ∃ id im f, i = .shared id ∧ E id = some im ∧ im.code = .function f ∧ f.label = l := by
  cases i with
  | fresh n => cases h
  | shared id =>
    obtain ⟨im, hid, h⟩ := Option.bind_eq_some_iff.mp h
    cases hcode : im.code with
    | function f =>
      simp only [hcode] at h
      exact ⟨id, im, f, rfl, hid, hcode, Option.some.inj h⟩
    | lambda l body =>
      simp only [hcode] at h
      cases h

/-- An image has the parameters, the body and the carrier of its scope. -/
theorem Emitted.exists_scope {vars : String → Ty → Prop} {t : ScopeTable} {E : Images} {σ : Store}
    (he : Emitted vars t E σ) {id : ScopeId} {im : Image} (hid : E id = some im) :
    ∃ sc, t.get? id = some sc ∧ im.scope.params = sc.params ∧ im.scope.body = sc.body ∧
      im.scope.carried = sc.carried := by
  obtain ⟨sc, alive, compiled, hsc, e⟩ := he.scope id im hid
  exact ⟨sc, hsc, by rw [e], by rw [e], by rw [e]⟩

/-- At first a world has the labels of the functions that are there. -/
theorem Emitted.tracks {vars : String → Ty → Prop} {t : ScopeTable} {S : Setting} {σ : Store}
    (he : Emitted vars t S.images σ) : Tracks S (.start S.images) 0 σ where
  below i l hi := by
    obtain ⟨id, im, f, -, hid, hcode, rfl⟩ := World.of_start hi
    have := he.below id im hid
    rwa [hcode] at this
  inj i j l hi hj := by
    obtain ⟨a, im, f, rfl, ha, hcode, rfl⟩ := World.of_start hi
    obtain ⟨b, im', f', rfl, hb, hcode', hl⟩ := World.of_start hj
    rw [he.inj a b im im' ha hb (by rw [hcode, hcode']; exact hl.symm)]
  made m l hm := by cases hm
  function id im f hid hcode _ := by
    simp only [World.start, hid, Option.bind_some, hcode]
  lambda id im l body hid hcode := by
    refine .inl ⟨he.lazy id im l body hid hcode, ?_⟩
    simp only [World.start, hid, Option.bind_some, hcode]

namespace Session

variable {τ : String → Ty} {vars : String → Ty → Prop} {s : Session} {σ : Store}
  {offers : List (ScopeId × Expr)} {around : ScopeId → List ScopeId}
  {decl : LocalId → Option (ScopeId × Ty)} {E : Images}

theorem tracks_start (he : Emitted (fun name ty => ty = τ name) s.closed E σ)
    (inputs : PlainInputs) : Tracks ⟨s.closed, E, τ, inputs⟩ (.start E) 0 σ :=
  Emitted.tracks he

section

variable (hk : s.Known vars offers around decl) (he : Emitted vars s.closed E σ) {id : ScopeId}
  {im : Image} {c : Carried} (hid : E id = some im) (hc : im.scope.carried = some c)

include hk he hid hc

theorem Known.carrier_not_mem : c.param.id ∉ im.scope.params.map Param.id := by
  intro hmem
  obtain ⟨sc, hsc, hp, -, hcar⟩ := he.exists_scope hid
  rw [hp] at hmem
  obtain ⟨p, hp, hpid⟩ := List.mem_map.mp hmem
  have hown := (hk.declared.closed id sc hsc p.id p.ty).mpr ⟨p, hp, rfl, rfl⟩
  rw [hpid, (hk.declared.carrier id sc c hsc (hcar.symm.trans hc)).1] at hown
  cases hown

/-- A scope does not capture its own parameters. -/
theorem Known.captured_not_mem {x : Slot} (hx : x ∈ c.env.slots) {v : LocalId}
    (hv : x.value = .loc v) : v ∉ im.scope.params.map Param.id := by
  obtain ⟨sc, hsc, hp, -, hcar⟩ := he.exists_scope hid
  have hx : x ∈ sc.env.slots := by rwa [Scope.env_of_carried (hcar.symm.trans hc)]
  have hcon := Env.contains_of_mem hx
  rw [hp, ← declares_loc]
  rw [hv] at hcon
  exact ((hk.captured.balanced id sc hsc).contains _).mp hcon |>.1

theorem Known.ty_of_args {x : Slot} (hx : x ∈ c.env.slots) (hv : x.value = .args) :
    x.ty = .argVector := by
  obtain ⟨sc, hsc, -, -, hcar⟩ := he.exists_scope hid
  have hx : x ∈ sc.env.slots := by rwa [Scope.env_of_carried (hcar.symm.trans hc)]
  have hb := hk.captured.slots id sc hsc x hx
  simp only [Backs, hv] at hb
  exact hb.2

end

theorem coherent (hk : s.Known (fun name ty => ty = τ name) offers around decl)
    (he : Emitted (fun name ty => ty = τ name) s.closed E σ) (inputs : PlainInputs) :
    Setting.Coherent ⟨s.closed, E, τ, inputs⟩ := by
  constructor
  case sound => exact he.sound
  case inj => exact he.inj
  case scope =>
    intro id im hid
    obtain ⟨sc, alive, compiled, hsc, e⟩ := he.scope id im hid
    have hscid : sc.id = id := by
      have := (he.sound id im hid).1
      rwa [e] at this
    exact ⟨sc, hsc, hscid.symm ▸ hid, by rw [e], by rw [e], by rw [e], by rw [e]⟩
  case carrier => exact fun id im c hid hc => hk.carrier_not_mem he hid hc
  case captured => exact fun id im c x hid hc hx v hv => hk.captured_not_mem he hid hc hx hv
  case inputs =>
    intro id im c x hid hc hx
    obtain ⟨sc, hsc, -, -, hcar⟩ := he.exists_scope hid
    have hmem : x ∈ sc.env.slots := by rwa [Scope.env_of_carried (hcar.symm.trans hc)]
    exact ⟨hk.ty_of_args he hid hc hx, fun name hv => hk.typed.slots id sc hsc x hmem name hv⟩

/-- A captured variable is among the names that the scope's environment notes. -/
theorem mem_names_of_contains (hk : s.Known vars offers around decl)
    {id : ScopeId} {sc : Scope} (hsc : s.closed.get? id = some sc) {name : String}
    (h : sc.env.contains (.var name) = true) : name ∈ sc.env.names := by
  refine hk.nested.closed_induction
    (P := fun _ sc => sc.env.contains (.var name) = true → name ∈ sc.env.names) ?_ hsc h
  intro id sc hsc ih h
  have hb := hk.captured.balanced id sc hsc
  rw [hb.names]
  rcases ((hb.contains _).mp h).2 with hr | ⟨c, huse, hc⟩
  · exact .inl ((Term.readsName_iff _ _).mpr hr)
  · obtain ⟨⟨child, hchild⟩, -⟩ := hk.nested.closedChild id sc hsc c (hb.children c huse)
    refine .inr ⟨c, huse, ?_⟩
    rw [ScopeTable.envOf_of_get? hchild] at hc ⊢
    exact ih c (hb.children c huse) child hchild hc

/-- The variables that a finished session names are those that its top scope notes. -/
theorem mem_used_names_iff (hk : s.Known vars offers around decl)
    {root : ScopeId} {plan : Plan} {used : InputUse} (hr : s.roots = [root])
    (hb : Plan.build s.closed root {} = (.ok plan, used)) {sc : Scope}
    (hsc : s.closed.get? root = some sc) (name : String) :
    name ∈ used.names ↔ name ∈ sc.env.names := by
  obtain ⟨x, hx, -, hu⟩ := noted_finalize hk.nested (name ∈ ·.names) (name ∈ ·.names)
    (fun u env => by simp [InputUse.add, or_comm]) (SortedSet.not_mem_empty name)
    (SortedSet.not_mem_empty name)
    (fun id sc hsc c huse hi =>
      ((hk.captured.balanced id sc hsc).names name).mpr (.inr ⟨c, huse, hi⟩)) hr hb
  obtain rfl := Option.some.inj (hsc.symm.trans hx)
  exact hu

/-! ## The function of the top scope -/

theorem instantiate_of_eval {e : Expr} {depth : Nat} {inputs : Inputs} {f : Closure} {σ σ₁ : Store}
    (hv : e.verify σ.isCompiled [] true = .ok ())
    (h : e.eval (Closure.invoke depth) ⟨[], some inputs⟩ σ = (.ok (.function f), σ₁)) :
    (Conversion.residual e).instantiate depth inputs σ = (.ok f, σ₁) := by
  have heval : e.evaluate depth inputs σ = (.ok (.function f), σ₁) := by
    rw [Term.evaluate_run, hv]
    exact h
  exact Outcome.bind_ok heval

/-- The result of a session is instantiated as the code that stands for the top scope is; it is a
function if that scope captures nothing. -/
theorem exists_residual {vars : String → Ty → Prop} {t : ScopeTable} {root : ScopeId}
    {result : Conversion} {σ' : Store} (h : Finalizing vars t root (.ok result, σ')) :
    ∃ E im e σ, Emitted vars t E σ ∧ E root = some im ∧ im.Stands .root e ∧
      result.isResidual = im.scope.carried.isSome ∧
      ∀ depth inputs, result.instantiate depth inputs σ' =
        (Conversion.residual e).instantiate depth inputs σ := by
  cases h with
  | @function f im E σ he hE hc hcode =>
    obtain ⟨x, code⟩ := im
    cases hcode
    have hst : Image.Stands .root ⟨x, .function f⟩ _ := .function hc
    have hv := hst.verify (he.sound root _ hE).2 σ'.isCompiled
    exact ⟨E, _, _, σ', he, hE, hst, by rw [hc]; rfl,
      fun depth inputs => (instantiate_of_eval hv rfl).symm⟩
  | @lambda l body f im E σ σ' he hE hc hcode hcomp =>
    obtain ⟨x, code⟩ := im
    cases hcode
    have hst : Image.Stands .root ⟨x, .lambda l body⟩ _ := .lambda hc
    have hv := hst.verify (he.sound root _ hE).2 σ.isCompiled
    exact ⟨E, _, _, σ, he, hE, hst, by rw [hc]; rfl,
      fun depth inputs => (instantiate_of_eval hv (eval_lambda hcomp)).symm⟩
  | @residual c e im E σ he hE hc hst =>
    exact ⟨E, im, e, σ', he, hE, hst, by rw [hc]; rfl, fun _ _ => rfl⟩

theorem exists_stands {vars : String → Ty → Prop} {root : ScopeId} {result : Conversion} {σ' : Store}
    (h : Finalizing vars s.closed root (.ok result, σ')) :
    ∃ E im e σ, Emitted vars s.closed E σ ∧ E root = some im ∧ im.Stands .root e ∧
      ∀ depth inputs f σ₁, e.eval (Closure.invoke depth) ⟨[], some inputs⟩ σ = (.ok (.function f), σ₁) →
        result.instantiate depth inputs σ' = (.ok f, σ₁) := by
  obtain ⟨E, im, e, σ, he, hE, hst, -, hinst⟩ := exists_residual h
  have hv := hst.verify (he.sound root im hE).2 σ.isCompiled
  exact ⟨E, im, e, σ, he, hE, hst, fun depth inputs f σ₁ hrun =>
    (hinst depth inputs).trans (instantiate_of_eval hv hrun)⟩

/-- At the top, what a capture stands for is read from the inputs. -/
theorem gives_root {S : Setting} {W : World} {call : Closure → List Value → EvalM Value} {x : Slot}
    (hty : ∀ name, x.value = .var name → x.ty = S.types name)
    (hin : ∀ name, x.value = .var name → ∃ d, S.inputs.named.lookup name = some d ∧
      d.conforms (S.types name) = true) {e : Expr} (h : Frame.root.Gives x e) :
    ∃ v w, x.value.Denotes S [] v ∧ Yields call ⟨[], some S.inputs.toInputs⟩ e w ∧
      Related S W v w := by
  cases h with
  | args hv =>
    rw [hv]
    refine ⟨_, _, rfl, fun σ => ?_, .data (.array S.inputs.arguments)⟩
    rw [Datum.lift_array]
    rfl
  | @var _ name hv =>
    obtain ⟨d, hd, hconf⟩ := hin name hv
    refine ⟨d.lift, d.lift, ?_, fun σ => ?_, .data d⟩
    · rw [hv]
      exact ⟨d, hd, rfl, hconf⟩
    · have hlook : S.inputs.toInputs.named.lookup name = some d.lift := by
        rw [PlainInputs.toInputs, Lists.lookup_map_snd, hd]
        rfl
      have hconf' : (d.lift : Value).conforms x.ty = true := by
        rw [Datum.conforms_lift, hty name hv]
        exact hconf
      unfold Term.eval
      rw [Outcome.bind_ok (show Context.getInputs _ σ = (.ok S.inputs.toInputs, σ) from rfl), hlook]
      simp only [Datum.checked, hconf', if_true]
      rfl

/-- A parameter is free in a scope: some scope declares it, and a chain of tokens leads to a body that
reads it, through no scope that declares it. -/
structure FreeParam (s : Session) (sc : Scope) (p : Param) : Prop where
  declared : ∃ owner params, s.parameters? owner = some params ∧ p ∈ params
  chain : ∃ path last, TokenChain s.closed sc path last ∧ last.body.Reads (.loc p.id) ∧
    ∀ x ∈ path, ¬ Declares x.params (.loc p.id)

/-- The slots for parameters stand for the free parameters, with their declared types. -/
theorem freeParam_iff_slot (hn : s.Nested around) (hd : s.Declared decl) (hc : s.Captured around decl)
    {id : ScopeId} {sc : Scope} (ha : s.Attached id) (hsc : s.closed.get? id = some sc) {v : LocalId}
    {ty : Ty} :
    (∃ p, s.FreeParam sc p ∧ p.id = v ∧ p.ty = ty) ↔
      ∃ x ∈ sc.env.slots, x.value = .loc v ∧ x.ty = ty := by
  have hdeclared : ∀ x ∈ sc.env.slots, x.value = .loc v →
      ∃ params, s.parameters? x.owner = some params ∧ ∃ p ∈ params, p.id = v ∧ p.ty = x.ty := by
    intro x hx hv
    have howner := ownerDeclares_of_attached hn hd hc ha hsc hx
    simp only [OwnerDeclares, hv] at howner
    exact howner.1
  constructor
  · rintro ⟨p, ⟨⟨owner, params, hparams, hp⟩, hchain⟩, rfl, rfl⟩
    obtain ⟨x, hx, hv⟩ := (Env.contains_iff _ _).mp ((contains_iff_chain hn hc hsc _).mpr hchain)
    obtain ⟨params', hparams', q, hq, hid, hty⟩ := hdeclared x hx hv
    -- a parameter is declared once, with one type
    have h := (owns_of_parameters? hd hparams p.id p.ty).mpr ⟨p, hp, rfl, rfl⟩
    have h' := (owns_of_parameters? hd hparams' p.id q.ty).mpr ⟨q, hq, hid, rfl⟩
    rw [h] at h'
    exact ⟨x, hx, hv, hty.symm.trans (Prod.mk.inj (Option.some.inj h')).2.symm⟩
  · rintro ⟨x, hx, hv, rfl⟩
    obtain ⟨params, hparams, p, hp, hid, hty⟩ := hdeclared x hx hv
    have hchain := (contains_iff_chain hn hc hsc _).mp (hv ▸ Env.contains_of_mem hx)
    exact ⟨p, ⟨⟨x.owner, params, hparams, hp⟩, hid ▸ hchain⟩, hid, hty⟩

/-- Where the parameters have the values `ρ`, a lambda that belongs to the session is a function iff those
that are free in it have values of their declared types. -/
theorem lambda_isOk_iff (h : s.Reachable) {id : ScopeId} {sc : Scope} (ha : s.Attached id)
    (hsc : s.closed.get? id = some sc) {r : Reading} (hr : r.strict = true)
    (ρ : List (LocalId × Datum Lexical)) (n : Nat) :
    (∃ f, (r.lambda ρ sc n).1 = .ok f) ↔
      ∀ p, s.FreeParam sc p → ∀ v, ρ.lookup p.id = some v → v.conforms p.ty = true := by
  obtain ⟨around, decl, hn, hd, hc⟩ := h.history
  have hslots : (∀ p, s.FreeParam sc p → ∀ v, ρ.lookup p.id = some v → v.conforms p.ty = true) ↔
      checkSlots ρ (checkOrder sc.env.slots) = .ok () := by
    simp only [checkSlots_eq_ok_iff, mem_checkOrder]
    constructor
    · intro hfree x hx v hv
      unfold Slot.param? at hv
      split at hv
      · next w hval =>
        obtain ⟨p, hp, hid, hty⟩ := (freeParam_iff_slot hn hd hc ha hsc).mpr ⟨x, hx, hval, rfl⟩
        rw [← hty]
        exact hfree p hp v (hid ▸ hv)
      · cases hv
    · intro hcheck p hp v hv
      obtain ⟨x, hx, hval, hty⟩ := (freeParam_iff_slot hn hd hc ha hsc).mp ⟨p, hp, rfl, rfl⟩
      rw [← hty]
      exact hcheck x hx v (by rw [Slot.param?, hval]; exact hv)
  rw [hslots]
  cases hcar : sc.carried with
  | none =>
    rw [lambda_of_static hcar, Scope.env_of_static hcar]
    exact iff_of_true ⟨_, rfl⟩ (checkSlots_eq_ok_iff.mpr (by simp [mem_checkOrder]))
  | some c =>
    rw [lambda_of_carried hcar hr, Scope.env_of_carried hcar]
    cases checkSlots ρ (checkOrder c.env.slots) <;> simp

theorem checkSlots_nil (xs : List Slot) : checkSlots [] xs = .ok () := by
  refine checkSlots_eq_ok_iff.mpr fun x _ v hv => ?_
  unfold Slot.param? at hv
  split at hv <;> cases hv

/-- With nothing around it, every scope is a function. -/
theorem lambda_nil (r : Reading) (hr : r.strict = true) (sc : Scope) (n : Nat) :
    ∃ f n', r.lambda [] sc n = (.ok f, n') := by
  cases hc : sc.carried with
  | none => exact ⟨_, _, lambda_of_static hc r n⟩
  | some c =>
    refine ⟨.mk (.fresh n) sc [], n + 1, ?_⟩
    rw [lambda_of_carried hc hr, checkSlots_nil]

/-- In the run of a front end that reads each variable at one type, a finished session can be
instantiated with all inputs that bind the variables it names to values of their types.  Whatever a
client then applies to data, it sees the same of the function obtained and of the direct reading of
the scope tree; and if it sees no type error, it sees the same of the reading that does not check
captured parameters. -/
theorem preserves_lexical_scoping {τ : String → Ty} {s : Session} {σ σ' : Store}
    {offers : List (ScopeId × Expr)} {fin : Finished}
    (h : FrontEnd (fun name ty => ty = τ name) s σ offers) (hf : s.finalize σ = (.ok fin, σ'))
    (inputs : PlainInputs)
    (hin : ∀ name ∈ fin.used.names, ∃ d, inputs.named.lookup name = some d ∧
      (d.lift : Value).conforms (τ name) = true) (depth : Nat) :
    ∃ root f σ₁, s.roots = [root] ∧
      fin.result.instantiate depth inputs.toInputs σ' = (.ok f, σ₁) ∧
      ∀ script, Reading.observe { table := s.closed, inputs } root script =
          some (play Closure.invoke script [f] σ₁) ∧
        ((∀ o ∈ play Closure.invoke script [f] σ₁, ∀ e, o = .error e → e.isType = false) →
          Reading.observe { table := s.closed, inputs, strict := false } root script =
            some (play Closure.invoke script [f] σ₁)) := by
  obtain ⟨around, decl, E₀, hk, hi⟩ := h.imaged
  obtain ⟨hs, root, plan, hr, hbuild, hconv⟩ := finalize_eq_ok hf
  have hroot : root ∈ s.roots := hr ▸ List.mem_singleton_self root
  obtain ⟨p, used, hbuild', hp, -⟩ := finalize_eq_convertRoot hk hs hr σ
  obtain ⟨rfl, rfl⟩ : p = plan ∧ used = fin.used := by
    rw [hbuild] at hbuild'
    cases hbuild'
    exact ⟨rfl, rfl⟩
  have hres := finalizing_convertRoot hk hi hroot hp
  rw [hconv] at hres
  obtain ⟨E, im, e, σ₀, he, hE, hst, hinst⟩ := exists_stands hres
  have hS := coherent hk he inputs
  obtain ⟨sc, hsc, hd⟩ := hS.scope root im hE
  have hgive : ∀ c, im.scope.carried = some c → ∀ x ∈ c.env.slots, ∀ e, Frame.root.Gives x e →
      ∃ v w, x.value.Denotes ⟨s.closed, E, τ, inputs⟩ [] v ∧
        Yields (Closure.invoke depth) ⟨[], some inputs.toInputs⟩ e w ∧
        Related ⟨s.closed, E, τ, inputs⟩ (.start E) v w := by
    intro c hc x hx e he
    refine gives_root (hS.inputs root im c x hE hc hx).2 (fun name hv => ?_) he
    have hx : x ∈ sc.env.slots := by rwa [Scope.env_of_carried (hd.carried.symm.trans hc)]
    have hcon := Env.contains_of_mem hx
    rw [hv] at hcon
    have hname := (mem_used_names_iff hk hr hbuild hsc name).mpr (mem_names_of_contains hk hsc hcon)
    obtain ⟨d, hd, hconf⟩ := hin name hname
    exact ⟨d, hd, by rwa [Datum.conforms_lift] at hconf⟩
  have hrun := agrees_stands hS hE hsc hst hgive (tracks_start he inputs)
  obtain ⟨g, n, hg⟩ := lambda_nil ⟨s.closed, inputs, true⟩ rfl sc 0
  have hg' : Reading.lambda (Setting.reading ⟨s.closed, E, τ, inputs⟩) [] sc 0 = (.ok g, n) := hg
  rw [hg'] at hrun
  generalize hx : e.eval (Closure.invoke depth) ⟨[], some inputs.toInputs⟩ σ₀ = o at hrun
  cases hrun with
  | @ok W _ w _ σ₁ _ ht hrel =>
    obtain ⟨f, rfl⟩ := hrel.exists_function
    refine ⟨root, f, σ₁, hr, hinst depth _ f σ₁ hx, fun script => ?_⟩
    have hobs : Reading.observe { table := s.closed, inputs } root script =
        some (play Closure.invoke script [f] σ₁) := by
      rw [Reading.observe_eq _ hsc hg]
      exact congrArg some (play_eq hS script (.cons hrel .nil) ht)
    exact ⟨hobs, Reading.observe_plain _ hobs⟩

/-- Scope 2, inside scope 1, has looked up parameter 0 of scope 1 and asked for the variable `k`. -/
def adder : List Command :=
  [.enter .dummy, .declare .int "a" .dummy, .begin, .enter .dummy, .declare .int "b" .dummy, .begin,
    .lookup "a", .var "k" .int]

/-- The first function takes `a` and gives the second, which takes `b` and gives `a + k`. -/
def adderRun : (List (Except ConversionError Answer) × Session) × Store :=
  run {} (adder ++ [.close (.binary .add (.loc 0) (.var "k" .int)) true] ++
    [.close (.placeholder 2) false]) {}

theorem frontEnd_adderRun :
    ∃ offers, FrontEnd (fun _ ty => ty = .int) adderRun.1.2 adderRun.2 offers := by
  have hnew : FrontEnd (fun _ ty => ty = .int) {} {} [] := .new Store.valid_empty
  have hfree : ∀ c ∈ adder, ∀ s offers, Obeys (fun _ ty => ty = .int) s offers c := by
    simp [adder, Obeys]
  have h₁ := (hnew.run hfree).run_concat (.close (.binary .add (.loc 0) (.var "k" .int)) true)
    (obeys_close 2 (by decide +kernel)
      (.binary (.given (mem_offers (by decide +kernel))) (.given (mem_offers (by decide +kernel)))))
  have h₂ := h₁.run_concat (.close (.placeholder 2) false)
    (obeys_close 1 (by decide +kernel) (.given (mem_offers (by decide +kernel))))
  rw [adderRun]
  exact ⟨_, h₂⟩

theorem preserves_lexical_scoping_adder :
    ∃ offers fin σ', FrontEnd (fun _ ty => ty = .int) adderRun.1.2 adderRun.2 offers ∧
      adderRun.1.2.finalize adderRun.2 = (.ok fin, σ') ∧ fin.used.names.toList = ["k"] ∧
      ∃ root f σ₁, adderRun.1.2.roots = [root] ∧
        fin.result.instantiate 1 (PlainInputs.toInputs ⟨[], [("k", .int 5)]⟩) σ' = (.ok f, σ₁) ∧
        ∀ script, Reading.observe
            { table := adderRun.1.2.closed, inputs := ⟨[], [("k", .int 5)]⟩ } root script =
          some (play Closure.invoke script [f] σ₁) := by
  obtain ⟨offers, h⟩ := frontEnd_adderRun
  have hnames : (adderRun.1.2.finalize adderRun.2).1.toOption.map (·.used.names.toList) =
      some ["k"] := by decide +kernel
  cases hf : adderRun.1.2.finalize adderRun.2 with
  | mk r σ' =>
    rw [hf] at hnames
    cases r with
    | error e => cases hnames
    | ok fin =>
      have hnames : fin.used.names.toList = ["k"] := Option.some.inj hnames
      obtain ⟨root, f, σ₁, hr, hinst, hplay⟩ := preserves_lexical_scoping (τ := fun _ => .int) h hf
        ⟨[], [("k", .int 5)]⟩ (fun name hname => by
          have hname : name ∈ fin.used.names.toList := hname
          rw [hnames, List.mem_singleton] at hname
          subst hname
          exact ⟨.int 5, rfl, rfl⟩) 1
      exact ⟨offers, fin, σ', h, rfl, hnames, root, f, σ₁, hr, hinst,
        fun script => (hplay script).1⟩

end Session

end ClosureConversion
