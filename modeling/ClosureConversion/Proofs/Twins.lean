import ClosureConversion.Proofs.Coupling
import ClosureConversion.Proofs.Process
import ClosureConversion.Proofs.Simulation

/-!
Compiled code over two argument vectors.

A scope that reads one position of the argument vector has the whole vector in its carrier, so two
runs over different vectors hold different values.  `Vectors`: two vectors of one length that differ
at most where the environment of the scope notes nothing.  `Twin`: the same data, or functions with
one label and one code whose carriers hold twins, and vectors that agree where the code reads them.

* `together_translates`: the code of a body runs alike in both runs.
* `coupledCalls_invoke`: twin functions do alike to twin arguments, at every depth of calls.
-/

namespace ClosureConversion

/-! ## Twins -/

/-- Argument vectors of one length that have the same values at these positions. -/
def Vectors (seen : SortedSet Nat) (v w : Value) : Prop :=
  ∃ as bs : List (Datum Empty), v = (Datum.array as).lift ∧ w = (Datum.array bs).lift ∧
    as.length = bs.length ∧ ∀ i ∈ seen, as[i]? = bs[i]?

/-- The same data, or functions of one scope that differ at most in what their code does not read. -/
inductive Twin (E : Images) : Value → Value → Prop
  | data (d : Datum Empty) : Twin E d.lift d.lift
  | code {id : ScopeId} {im : Image} {label : Label} {body : Expr} :
      E id = some im → im.scope.carried = none →
      im.code.Runs label (im.scope.params.map Param.id) body →
      Twin E (.function (.code label (im.scope.params.map Param.id) body))
        (.function (.code label (im.scope.params.map Param.id) body))
  | bound {id : ScopeId} {im : Image} {c : Carried} {f : Closure} {label : Label}
      {first first' : Value} {ps : List (Value × Value)} :
      E id = some im → im.scope.carried = some c → im.code = .function f →
      Stores c.layout.segments (ps.map Prod.fst) first →
      Stores c.layout.segments (ps.map Prod.snd) first' →
      c.env.slots.length = ps.length →
      (∀ q ∈ c.env.slots.zip ps, q.1.value = .args → Vectors c.env.indices q.2.1 q.2.2) →
      (∀ q ∈ c.env.slots.zip ps, q.1.value ≠ .args → Twin E q.2.1 q.2.2) →
      Twin E (.function (.bound label im.scope.params.length first f))
        (.function (.bound label im.scope.params.length first' f))

/-- What the two runs have for a slot, where the environment notes these positions. -/
structure Supplies (E : Images) (seen : SortedSet Nat) (x : Slot) (p : Value × Value) : Prop where
  vector : x.value = .args → Vectors seen p.1 p.2
  twin : x.value ≠ .args → Twin E p.1 p.2

/-- The carriers of the two runs. -/
structure Holds (E : Images) (c : Carried) (ps : List (Value × Value)) (v w : Value) : Prop where
  left : Stores c.layout.segments (ps.map Prod.fst) v
  right : Stores c.layout.segments (ps.map Prod.snd) w
  supplies : List.Forall₂ (Supplies E c.env.indices) c.env.slots ps

variable {vars : String → Ty → Prop} {E : Images} {seen seen' : SortedSet Nat} {v w v' w' : Value}

theorem Supplies.mono {x : Slot} {p : Value × Value} (h : Supplies E seen x p)
    (hsub : ∀ i ∈ seen', i ∈ seen) : Supplies E seen' x p where
  vector hx := by
    obtain ⟨as, bs, hv, hw, hlen, hsame⟩ := h.vector hx
    exact ⟨as, bs, hv, hw, hlen, fun i hi => hsame i (hsub i hi)⟩
  twin := h.twin

theorem Supplies.of_twin {x : Slot} {p : Value × Value} (hx : x.value ≠ .args)
    (h : Twin E p.1 p.2) : Supplies E seen x p :=
  ⟨fun e => absurd e hx, fun _ => h⟩

namespace Twin

theorem peers (h : Twin E v w) :
    Peers (fun f g : Closure => f.arity = g.arity ∧ f.label = g.label) v w := by
  cases h with
  | data d => exact .data d
  | code _ _ _ => exact .function ⟨rfl, rfl⟩
  | bound _ _ _ _ _ _ _ _ => exact .function ⟨rfl, rfl⟩

theorem conforms_eq (h : Twin E v w) (ty : Ty) : v.conforms ty = w.conforms ty :=
  h.peers.conforms_eq (fun _ _ hr => hr.1) ty

theorem same_eq (h : Twin E v w) (h' : Twin E v' w') : v.same v' = w.same w' := by
  refine h.peers.same_eq h'.peers fun f g f' g' hr hr' => ?_
  show (f.label == f'.label) = (g.label == g'.label)
  rw [hr.2, hr'.2]

end Twin

/-- The functions in the store are those of the code. -/
def Store.Follows (E : Images) (σ : Store) : Prop :=
  ∀ id im l body, E id = some im → im.code = .lambda l body → ∀ f, σ.function? l = some f →
    ∃ label, f = .code label (im.scope.params.map Param.id) body

/-- The two runs have one store. -/
def twins (E : Images) : Coupling where
  World := Unit
  le _ _ := True
  refl _ := trivial
  trans _ _ := trivial
  ties _ σ τ := τ = σ ∧ σ.Follows E
  values _ := Twin E
  mono _ h := h
  scalar _ d _ := .data d
  akin h := h.peers.akin
  conforms h := h.conforms_eq
  same _ h h' := h.same_eq h'

/-! ## What code reads -/

/-- The environment of the scope notes the positions of the argument vector that the expression
reads, also in the scopes that it uses. -/
structure Notes (E : Images) (sc : Scope) (e : Expr) : Prop where
  index : ∀ i, e.ReadsIndex i → i ∈ sc.env.indices
  uses : ∀ c im i, e.Uses c → E c = some im → i ∈ im.scope.env.indices → i ∈ sc.env.indices

theorem Notes.child {sc : Scope} {e c : Expr} (h : Notes E sc e) (hc : c ∈ e.children) :
    Notes E sc c where
  index i hi := by
    obtain ⟨ty, hn⟩ := hi
    exact h.index i ⟨ty, (Term.mem_nodes e _).mpr (.inr ⟨c, hc, hn⟩)⟩
  uses d im i hd := by
    obtain ⟨n, hn, ht⟩ := hd
    exact h.uses d im i ⟨n, (Term.mem_nodes e n).mpr (.inr ⟨c, hc, hn⟩), ht⟩

/-- What holds of the code of a scope tree. -/
structure Images.Watched (vars : String → Ty → Prop) (E : Images) : Prop where
  sound : E.Sound vars
  inj : ∀ a b im im', E a = some im → E b = some im' → im.code.label = im'.code.label → a = b
  carrier : ∀ id im c, E id = some im → im.scope.carried = some c →
    c.param.id ∉ im.scope.params.map Param.id
  vector : ∀ id im c x, E id = some im → im.scope.carried = some c → x ∈ c.env.slots →
    x.value = .args → x.ty = .argVector
  notes : ∀ id im, E id = some im → Notes E im.scope im.scope.body

/-! ## Reading captured values -/

/-- Code for the body of the scope runs here in both runs. -/
structure Beside (E : Images) (sc : Scope) (ctx ctx' : Context) : Prop where
  own : ∀ p ∈ sc.params, ∃ v w, ctx.locals.lookup p.id = some v ∧
    ctx'.locals.lookup p.id = some w ∧ Twin E v w
  carried : ∀ c, sc.carried = some c → ∃ first first' ps, ctx.locals.lookup c.param.id = some first ∧
    ctx'.locals.lookup c.param.id = some first' ∧ Holds E c ps first first'

section

variable {sc : Scope} {call call' : Closure → List Value → EvalM Value} {ctx ctx' : Context}
  (hl : ∀ c, sc.carried = some c → Segments 0 c.env.types c.layout.segments)
  (h : Beside E sc ctx ctx')

include hl h

/-- What the code reads from the two carriers. -/
theorem Beside.read {c : Carried} (hc : sc.carried = some c) {x : Capture} {i : Nat}
    (hi : c.env.indexOf? x = some i) {e : Expr} (he : c.read i = .ok e) :
    ∃ y p, y.value = x ∧ Yields call ctx e p.1 ∧ Yields call' ctx' e p.2 ∧
      Supplies E sc.env.indices y p := by
  obtain ⟨first, first', ps, hf, hf', hh⟩ := h.carried c hc
  obtain ⟨hlt, hval, -⟩ := List.findIdx?_eq_some_iff_getElem.mp hi
  have hp : i < ps.length := hh.supplies.length_eq ▸ hlt
  have hlen : ps.length = c.env.types.length := by
    rw [← hh.supplies.length_eq, Env.types, List.length_map]
  refine ⟨c.env.slots[i], ps[i], beq_iff_eq.mp hval, ?_, ?_, ?_⟩
  · refine yields_access (hl c hc) hh.left (by simpa using hlen) (yields_loc hf) he ?_
    rw [List.getElem?_map, List.getElem?_eq_getElem hp]
    rfl
  · refine yields_access (hl c hc) hh.right (by simpa using hlen) (yields_loc hf') he ?_
    rw [List.getElem?_map, List.getElem?_eq_getElem hp]
    rfl
  · rw [Scope.env_of_carried hc]
    exact hh.supplies.get hlt hp

theorem Beside.fetch {x : Capture} {e : Expr} (he : sc.Fetches x e) :
    ∃ y p, y.value = x ∧ Yields call ctx e p.1 ∧ Yields call' ctx' e p.2 ∧
      Supplies E sc.env.indices y p := by
  obtain ⟨c, i, hc, hi, hr⟩ := he
  exact h.read hl hc hi hr

/-- What the scope supplies to the carriers of its children. -/
theorem Beside.gives {x : Slot} {e : Expr} (he : sc.frame.Gives x e) :
    ∃ p, Yields call ctx e p.1 ∧ Yields call' ctx' e p.2 ∧ Supplies E sc.env.indices x p := by
  generalize hf : sc.frame = f at he
  cases he with
  | own _ hval hmem =>
    cases hf
    obtain ⟨p, hp, rfl⟩ := List.mem_map.mp hmem
    obtain ⟨v, w, hv, hw, ht⟩ := h.own p hp
    exact ⟨(v, w), yields_loc hv, yields_loc hw, .of_twin (by rw [hval]; nofun) ht⟩
  | @forwarded _ _ c _ _ _ _ hi hr =>
    have hc : sc.carried = some c := (Frame.scope.inj hf).2.2
    obtain ⟨y, p, hy, hv, hw, hs⟩ := h.read hl hc hi hr
    exact ⟨p, hv, hw, fun e => hs.vector (hy.trans e), fun e => hs.twin (hy ▸ e)⟩
  | args _ => cases hf
  | var _ => cases hf

end

/-! ## Making carriers -/

/-- The check of a field ends alike for the two values. -/
def ChecksAlike (p : Value × Value) (ty : Ty) : Prop :=
  p.1.conforms ty = p.2.conforms ty ∧ p.1.kind = p.2.kind

theorem Supplies.checksAlike {x : Slot} {p : Value × Value} (h : Supplies E seen x p)
    (hty : x.value = .args → x.ty = .argVector) : ChecksAlike p x.ty := by
  by_cases hx : x.value = .args
  · obtain ⟨as, bs, hv, hw, -, -⟩ := h.vector hx
    have hconf : ∀ ds : List (Datum Empty), ((Datum.array ds).lift : Value).conforms .argVector =
        true := by
      intro ds
      rw [Datum.conforms_lift]
      show Datum.allConform ds .any = true
      simp [Datum.allConform_eq_all, Datum.conforms]
    rw [ChecksAlike, hv, hw, hty hx, hconf, hconf]
    exact ⟨rfl, rfl⟩
  · exact ⟨(h.twin hx).conforms_eq x.ty, (h.twin hx).peers.akin.kind_eq⟩

theorem checksAlike_types {slots : List Slot} {ps : List (Value × Value)}
    (h : List.Forall₂ (Supplies E seen) slots ps)
    (hty : ∀ x ∈ slots, x.value = .args → x.ty = .argVector) :
    List.Forall₂ ChecksAlike ps (slots.map Slot.ty) := by
  induction h with
  | nil => exact .nil
  | cons hx _ ih =>
    rw [List.forall_mem_cons] at hty
    exact .cons (hx.checksAlike hty.1) (ih hty.2)

theorem checkFields_eq {ps : List (Value × Value)} {types : List Ty}
    (h : List.Forall₂ ChecksAlike ps types) :
    Datum.checkFields (ps.map Prod.fst) types = Datum.checkFields (ps.map Prod.snd) types := by
  induction h with
  | nil => rfl
  | cons hp _ ih =>
    simp only [List.map_cons, Datum.checkFields, Datum.checked, wrongType, hp.1, hp.2, ih]
    split
    · rfl
    · rfl

/-- One store makes the carriers for both runs. -/
theorem coupled_build {start : Nat} {types : List Ty} {s : Segment} {ss : List Segment}
    (hs : Segments start types (s :: ss)) {ps : List (Value × Value)}
    (hck : List.Forall₂ ChecksAlike ps types) (W : (twins E).World) {σ : Store}
    (hσ : σ.Follows E) :
    Coupled (twins E) (fun _ v w => Stores (s :: ss) (ps.map Prod.fst) v ∧
        Stores (s :: ss) (ps.map Prod.snd) w) W
      (Layout.build (ps.map Prod.fst) s ss σ) (Layout.build (ps.map Prod.snd) s ss σ) := by
  have hlen := hck.length_eq
  induction ss generalizing start types s ps with
  | nil =>
    cases hs with
    | last _ hle hf =>
      unfold Layout.build
      rw [List.take_of_length_le (by simp [hlen]), List.take_of_length_le (by simp [hlen]),
        Outcome.adapt_eq, Outcome.adapt_eq, Datum.newCarrier_eq (by simp [Shape.arity, hf, hlen]),
        Datum.newCarrier_eq (by simp [Shape.arity, hf, hlen]), hf, checkFields_eq hck]
      cases Datum.checkFields (ps.map Prod.snd) types with
      | ok _ => exact .ok ((twins E).refl W) ⟨rfl, hσ⟩ ⟨.last, .last⟩
      | error f => exact .error ((twins E).refl W) ⟨rfl, hσ⟩
  | cons t ts ih =>
    cases hs with
    | @link _ _ shape _ _ hlt hf hrest =>
      have hdrop := List.forall₂_drop Layout.tailSlot hck
      have htake := List.forall₂_take Layout.tailSlot hck
      unfold Layout.build
      rw [← List.map_drop, ← List.map_drop, ← List.map_take, ← List.map_take]
      refine (ih hrest hdrop hdrop.length_eq).bind fun W next next' σ' τ' _ ht hst => ?_
      obtain ⟨rfl, hσ'⟩ := ht
      obtain ⟨hst, hst'⟩ := hst
      rw [Outcome.adapt_eq, Outcome.adapt_eq, Datum.newCarrier_eq (by simp [Shape.arity, hf, hlen]),
        Datum.newCarrier_eq (by simp [Shape.arity, hf, hlen]), hf,
        Datum.checkFields_append (by simp [hlen]), Datum.checkFields_append (by simp [hlen]),
        checkFields_eq htake]
      obtain ⟨label, fields, rfl⟩ := hst.shape
      obtain ⟨label', fields', rfl⟩ := hst'.shape
      rw [Datum.checkFields_carrier, Datum.checkFields_carrier]
      cases Datum.checkFields ((ps.take Layout.tailSlot).map Prod.snd)
          (types.take Layout.tailSlot) with
      | error f => exact .error ((twins E).refl W) ⟨rfl, hσ'⟩
      | ok _ =>
        rw [List.map_drop] at hst hst'
        rw [List.map_take, List.map_take]
        exact .ok ((twins E).refl W) ⟨rfl, hσ'⟩ ⟨.link hst, .link hst'⟩

section

variable {call call' : Closure → List Value → EvalM Value} {ctx ctx' : Context} {frame : Frame}

theorem coupled_yields {R : Value → Value → Prop} {e : Expr} (hv : Yields call ctx e v)
    (hw : Yields call' ctx' e w) (h : R v w) (W : (twins E).World) {σ : Store} (hσ : σ.Follows E) :
    Coupled (twins E) (fun _ => R) W (e.eval call ctx σ) (e.eval call' ctx' σ) := by
  rw [hv, hw]
  exact .ok ((twins E).refl W) ⟨rfl, hσ⟩ h

/-- The values of the expressions that supply a carrier. -/
theorem coupled_supplied {slots : List Slot} {es : List Expr}
    (hg : List.Forall₂ frame.Gives slots es)
    (h : ∀ x ∈ slots, ∀ e, frame.Gives x e → ∀ W σ, σ.Follows E →
      Coupled (twins E) (fun _ v w => Supplies E seen x (v, w)) W (e.eval call ctx σ)
        (e.eval call' ctx' σ)) (W : (twins E).World) {σ : Store} (hσ : σ.Follows E) :
    Coupled (twins E) (fun _ vs ws => ∃ ps : List (Value × Value), vs = ps.map Prod.fst ∧
        ws = ps.map Prod.snd ∧ List.Forall₂ (Supplies E seen) slots ps) W
      (Term.evalAll call ctx es σ) (Term.evalAll call' ctx' es σ) := by
  induction hg generalizing W σ with
  | nil => exact .pure ⟨rfl, hσ⟩ ⟨[], rfl, rfl, .nil⟩
  | cons hx _ ih =>
    rw [List.forall_mem_cons] at h
    unfold Term.evalAll
    refine (h.1 _ hx W σ hσ).bind fun W₁ v w σ₁ τ₁ _ ht₁ hv => ?_
    obtain ⟨rfl, hσ₁⟩ := ht₁
    refine (ih h.2 W₁ hσ₁).bind fun W₂ vs ws σ₂ τ₂ _ ht₂ hvs => ?_
    obtain ⟨ps, rfl, rfl, hps⟩ := hvs
    exact .pure ht₂ ⟨(v, w) :: ps, rfl, rfl, .cons hv hps⟩

/-! ## Tokens -/

section

variable {id : ScopeId} {x : Scope} (hE : E.Watched vars) (W : (twins E).World) {σ : Store}
  (hσ : σ.Follows E)

include hE

theorem twin_delegate {f : Closure} (hid : E id = some ⟨x, .function f⟩) (hc : x.carried = none) :
    Twin E (.function f) (.function f) := by
  have hlocals : x.frame.locals = x.params.map Param.id := by
    simp [Scope.frame, Frame.locals, hc]
  have hbuilt := (hE.sound id _ hid).2.built
  generalize hcode : Code.function f = code at hbuilt
  cases hbuilt with
  | @function _ label body _ =>
    cases hcode
    rw [hlocals] at hid ⊢
    exact .code hid hc .function
  | lambda _ _ _ => cases hcode

include hσ

theorem Store.Follows.record {l : Label} {body : Expr} (hid : E id = some ⟨x, .lambda l body⟩) :
    (σ.record ⟨l, x.params, body⟩).Follows E := by
  intro id' im l' body' hid' hcode g hg
  rw [Store.function?_record] at hg
  split at hg
  · next he =>
    have hsame : id' = id := hE.inj id' id _ _ hid' hid (by rw [hcode, he]; rfl)
    subst hsame
    obtain rfl := Option.some.inj (hid.symm.trans hid')
    cases hcode
    exact ⟨_, (Option.some.inj hg).symm⟩
  · exact hσ id' im l' body' hid' hcode g hg

/-- A lambda is compiled when it is first met, for both runs. -/
theorem coupled_lambda {l : Label} {body : Expr} (hid : E id = some ⟨x, .lambda l body⟩)
    (hc : x.carried = none) :
    Coupled (twins E) (fun _ => Twin E) W ((Term.lambda l x.params body).eval call ctx σ)
      ((Term.lambda l x.params body).eval call' ctx' σ) := by
  have hrun := Lambda.compile_run ⟨l, x.params, body⟩ σ
  unfold Term.eval
  rw [Outcome.map_eq, Outcome.adapt_eq, hrun]
  cases hf : σ.function? l with
  | some f =>
    obtain ⟨label, rfl⟩ := hσ id _ l body hid rfl f hf
    exact .ok ((twins E).refl W) ⟨rfl, hσ⟩ (.code hid hc .lambda)
  | none =>
    cases Lambda.verify σ.isCompiled ⟨l, x.params, body⟩ with
    | error e => exact .error ((twins E).refl W) ⟨rfl, hσ⟩
    | ok _ =>
      exact .ok ((twins E).refl W) ⟨rfl, hσ.record hE hid⟩ (.code hid hc .lambda)

theorem coupled_bind {f : Closure} {c : Carried} (hid : E id = some ⟨x, .function f⟩)
    (hc : x.carried = some c) {es : List Expr} (hg : List.Forall₂ frame.Gives c.env.slots es)
    (hgive : ∀ y ∈ c.env.slots, ∀ e, frame.Gives y e → ∀ W σ, σ.Follows E →
      Coupled (twins E) (fun _ v w => Supplies E c.env.indices y (v, w)) W (e.eval call ctx σ)
        (e.eval call' ctx' σ)) :
    Coupled (twins E) (fun _ => Twin E) W
      ((Term.bind (Layout.chain es c.layout.head c.layout.rest) f x.params.length).eval call ctx σ)
      ((Term.bind (Layout.chain es c.layout.head c.layout.rest) f x.params.length).eval call' ctx'
        σ) := by
  have hsegs := (hE.sound id _ hid).2.layout c hc
  have hlen : es.length = c.env.types.length := by
    rw [← hg.length_eq, Env.types, List.length_map]
  rw [eval_bind hsegs hlen, eval_bind hsegs hlen]
  refine (coupled_supplied hg hgive W hσ).bind fun W₁ vs ws σ₁ τ₁ _ ht₁ hvs => ?_
  obtain ⟨rfl, hσ₁⟩ := ht₁
  obtain ⟨ps, rfl, rfl, hps⟩ := hvs
  have hck : List.Forall₂ ChecksAlike ps c.env.types :=
    checksAlike_types hps fun y hy => hE.vector id _ c y hid hc hy
  unfold Layout.capture
  refine (coupled_build hsegs hck W₁ hσ₁).bind fun W₂ v w σ₂ τ₂ _ ht₂ h => ?_
  obtain ⟨rfl, hσ₂⟩ := ht₂
  rw [Outcome.map_eq, Outcome.map_eq, Outcome.adapt_eq, Outcome.adapt_eq, Closure.bind_run,
    Closure.bind_run]
  cases f.fit x.params.length with
  | error f => exact .error ((twins E).refl W₂) ⟨rfl, hσ₂⟩
  | ok _ =>
    obtain ⟨hlen, hzip⟩ := List.forall₂_iff_zip.mp hps
    exact .ok ((twins E).refl W₂) ⟨rfl, hσ₂⟩ (.bound hid hc rfl h.1 h.2 hlen
      (fun q hq => (hzip hq).vector) (fun q hq => (hzip hq).twin))

/-- What stands for a scope in code makes twin functions. -/
theorem coupled_stands {im : Image} (hid : E id = some im) {e : Expr} (hst : im.Stands frame e)
    (hgive : ∀ c, im.scope.carried = some c → ∀ y ∈ c.env.slots, ∀ e, frame.Gives y e →
      ∀ W σ, σ.Follows E → Coupled (twins E) (fun _ v w => Supplies E c.env.indices y (v, w)) W
        (e.eval call ctx σ) (e.eval call' ctx' σ)) :
    Coupled (twins E) (fun _ => Twin E) W (e.eval call ctx σ) (e.eval call' ctx' σ) := by
  cases hst with
  | function hc => exact .pure ⟨rfl, hσ⟩ (twin_delegate hE hid hc)
  | lambda hc => exact coupled_lambda hE W hσ hid hc
  | bind hc hg => exact coupled_bind hE W hσ hid hc hg (hgive _ hc)

end

/-! ## Bodies -/

/-- The two runs of the body of a scope. -/
def surround (E : Images) (sc : Scope) (ctx ctx' : Context)
    (hcall : CoupledCalls (twins E) call call') : Surroundings (twins E) where
  call := call
  call' := call'
  ctx := ctx
  ctx' := ctx'
  admits _ _ := Beside E sc ctx ctx'
  mono _ h := h
  child _ h := h
  calls := hcall

theorem together_of {sc : Scope} {e : Expr} {hcall : CoupledCalls (twins E) call call'}
    (h : ∀ W σ, Beside E sc ctx ctx' → σ.Follows E →
      Coupled (twins E) (fun _ => Twin E) W (e.eval call ctx σ) (e.eval call' ctx' σ)) :
    Together (surround E sc ctx ctx' hcall) e := by
  intro W σ τ hb ht
  obtain ⟨rfl, hσ⟩ := ht
  exact h W τ hb hσ

theorem together_translates {sc : Scope} {src tgt : Expr} (hE : E.Watched vars)
    (hcall : CoupledCalls (twins E) call call')
    (hl : ∀ c, sc.carried = some c → Segments 0 c.env.types c.layout.segments)
    (h : Translates vars E sc src tgt) (hn : Notes E sc src) :
    Together (surround E sc ctx ctx' hcall) tgt := by
  induction h with
  | own hp =>
    refine together_of fun W σ hb hσ => ?_
    obtain ⟨v, w, hv, hw, hvw⟩ := hb.own _ hp
    exact coupled_yields (yields_loc hv) (yields_loc hw) hvw W hσ
  | captured hf =>
    refine together_of fun W σ hb hσ => ?_
    obtain ⟨y, p, hy, hv, hw, hs⟩ := hb.fetch hl hf
    exact coupled_yields hv hw (hs.twin (by rw [hy]; nofun)) W hσ
  | @argument i ty e hf =>
    refine together_of fun W σ hb hσ => ?_
    obtain ⟨y, p, hy, hv, hw, hs⟩ := hb.fetch hl hf
    obtain ⟨as, bs, hp, hp', hlen, hsame⟩ := hs.vector hy
    have hi := hsame i (hn.index i ⟨ty, Term.self_mem_nodes _⟩)
    unfold Term.eval
    rw [Outcome.bind_ok (hv σ), Outcome.bind_ok (hw σ), hp, hp', Datum.lift_array, Datum.lift_array]
    simp only [List.getElem?_map, List.length_map, hi, hlen]
    cases bs[i]? with
    | none => exact .fail _ ⟨rfl, hσ⟩
    | some d => exact .ofExcept ⟨rfl, hσ⟩ ((twins E).checked (W := W) (Twin.data d) ty)
  | var _ hf =>
    refine together_of fun W σ hb hσ => ?_
    obtain ⟨y, p, hy, hv, hw, hs⟩ := hb.fetch hl hf
    exact coupled_yields hv hw (hs.twin (by rw [hy]; nofun)) W hσ
  | @placeholder c im e hid hst =>
    refine together_of fun W σ hb hσ => ?_
    refine coupled_stands hE W hσ hid hst fun k hk y _ e he W₁ σ₁ hσ₁ => ?_
    obtain ⟨p, hv, hw, hs⟩ := hb.gives hl he
    -- the child reads no more of the vector than its parent notes
    have hsub : ∀ i ∈ k.env.indices, i ∈ sc.env.indices := fun i hi =>
      hn.uses c im i ⟨_, Term.self_mem_nodes _, rfl⟩ hid (Scope.env_of_carried hk ▸ hi)
    exact coupled_yields hv hw (hs.mono hsub) W₁ hσ₁
  | @delegate c im f hid hc hcode =>
    obtain ⟨x, code⟩ := im
    cases hcode
    exact together_of fun W σ _ hσ => .pure ⟨rfl, hσ⟩ (twin_delegate hE hid hc)
  | @literal e hp hchild =>
    cases e with
    | void => exact .literal ⟨.void, rfl, fun _ _ => rfl⟩
    | bool b => exact .literal ⟨.bool b, rfl, fun _ _ => rfl⟩
    | int k => exact .literal ⟨.int k, rfl, fun _ _ => rfl⟩
    | number x => exact .literal ⟨.number x, rfl, fun _ _ => rfl⟩
    | string s => exact .literal ⟨.string s, rfl, fun _ _ => rfl⟩
    | binary | unary | compare | logical | cond | call => cases hchild
    | _ => cases hp
  | binary _ _ ihl ihr =>
    exact .binary (ihl (hn.child (by simp [Term.children])))
      (ihr (hn.child (by simp [Term.children]))) _
  | unary _ ih => exact .unary (ih (hn.child (by simp [Term.children]))) _
  | compare _ _ ihl ihr =>
    exact .compare (ihl (hn.child (by simp [Term.children])))
      (ihr (hn.child (by simp [Term.children]))) _
  | logical _ _ ihl ihr =>
    exact .logical (ihl (hn.child (by simp [Term.children])))
      (ihr (hn.child (by simp [Term.children]))) _
  | cond _ _ _ ihc ihy ihn =>
    exact .cond (ihc (hn.child (by simp [Term.children])))
      (ihy (hn.child (by simp [Term.children]))) (ihn (hn.child (by simp [Term.children])))
  | call _ hlen _ ihf ihas =>
    refine .call (ihf (hn.child List.mem_cons_self)) fun a' ha' => ?_
    obtain ⟨a, hmem⟩ := Lists.exists_mem_zip_right hlen ha'
    exact ihas a a' hmem (hn.child (List.mem_cons_of_mem _ (List.of_mem_zip hmem).1))

end

/-! ## Calls -/

section

variable {depth : Nat} {id : ScopeId} {im : Image} {body : Expr} {vs ws : List Value}
  (hE : E.Watched vars)
  (ih : CoupledCalls (twins E) (Closure.invoke depth) (Closure.invoke depth))
  (hid : E id = some im) (hargs : List.Forall₂ (Twin E) vs ws) (W : (twins E).World) {σ : Store}
  (hσ : σ.Follows E)

include hE ih hid hargs hσ

/-- A call runs the body in both runs, or reports the number of arguments in both. -/
theorem coupled_enter {g g' : Closure} (locals locals' : List (LocalId × Value))
    (htr : Translates vars E im.scope im.scope.body body)
    (henter : g.enter vs = if vs.length = im.scope.params.length then .ok (locals, body)
      else .error (.argumentCount im.scope.params.length vs.length))
    (henter' : g'.enter ws = if ws.length = im.scope.params.length then .ok (locals', body)
      else .error (.argumentCount im.scope.params.length ws.length))
    (hb : vs.length = im.scope.params.length →
      Beside E im.scope ⟨locals, none⟩ ⟨locals', none⟩) :
    Coupled (twins E) (fun _ => Twin E) W (g.invoke (depth + 1) vs σ)
      (g'.invoke (depth + 1) ws σ) := by
  unfold Closure.invoke
  rw [henter, henter', ← hargs.length_eq]
  by_cases hlen : vs.length = im.scope.params.length
  · rw [if_pos hlen, if_pos hlen]
    have hl := (hE.sound id im hid).2.layout
    exact together_translates hE ih hl htr (hE.notes id im hid) W σ σ (hb hlen) ⟨rfl, hσ⟩
  · rw [if_neg hlen, if_neg hlen]
    exact .fail _ ⟨rfl, hσ⟩

theorem coupled_code {label : Label} (hc : im.scope.carried = none)
    (hr : im.code.Runs label (im.scope.params.map Param.id) body) :
    Coupled (twins E) (fun _ => Twin E) W
      ((Closure.code label (im.scope.params.map Param.id) body).invoke (depth + 1) vs σ)
      ((Closure.code label (im.scope.params.map Param.id) body).invoke (depth + 1) ws σ) := by
  have htr := (hE.sound id im hid).2.built.translates_of_runs hr
  refine coupled_enter hE ih hid hargs W hσ ((im.scope.params.map Param.id).zip vs)
    ((im.scope.params.map Param.id).zip ws) htr ?_ ?_ fun hlen => ⟨fun p hp => ?_, fun c hcar => ?_⟩
  · simp only [Closure.enter, List.length_map]
  · simp only [Closure.enter, List.length_map]
  · simpa using exists_lookup_zip hargs (by simpa using hlen) (List.mem_map_of_mem hp) []
  · rw [hc] at hcar
    cases hcar

theorem coupled_bound {c : Carried} {f : Closure} {label : Label} {first first' : Value}
    {ps : List (Value × Value)} (hc : im.scope.carried = some c) (hf : im.code = .function f)
    (hh : Holds E c ps first first') :
    Coupled (twins E) (fun _ => Twin E) W
      ((Closure.bound label im.scope.params.length first f).invoke (depth + 1) vs σ)
      ((Closure.bound label im.scope.params.length first' f).invoke (depth + 1) ws σ) := by
  obtain ⟨body, htr, henter⟩ := exists_enter hE.sound hid hc hf
  refine coupled_enter hE ih hid hargs W hσ _ _ htr (henter label first vs) (henter label first' ws)
    fun hlen => ⟨fun p hp => ?_, fun c' hc' => ?_⟩
  · have hmem := List.mem_map_of_mem (f := Param.id) hp
    have hne : p.id ≠ c.param.id := fun e => hE.carrier id im c hid hc (e ▸ hmem)
    simp only [List.lookup_cons, beq_eq_false_iff_ne.mpr hne]
    simpa using exists_lookup_zip hargs (by simpa using hlen) hmem []
  · obtain rfl := Option.some.inj (hc.symm.trans hc')
    exact ⟨first, first', ps, by simp, by simp, hh⟩

end

/-- Twin functions do alike to twin arguments, however deep calls may nest. -/
theorem coupledCalls_invoke (hE : E.Watched vars) (depth : Nat) :
    CoupledCalls (twins E) (Closure.invoke depth) (Closure.invoke depth) := by
  induction depth with
  | zero =>
    intro W f g vs ws σ τ _ _ ht
    exact .error ((twins E).refl W) ht
  | succ depth ih =>
    intro W f g vs ws σ τ h hargs ht
    obtain ⟨rfl, hσ⟩ := ht
    have h : Twin E (.function f) (.function g) := h
    generalize hv : Datum.function f = v, hw : Datum.function g = w at h
    cases h with
    | data d =>
      cases d with
      | function x => exact x.elim
      | _ => cases hv
    | code hid hc hr =>
      cases hv
      cases hw
      exact coupled_code hE ih hid hargs W hσ hc hr
    | bound hid hc hf hst hst' hlen hvec htwin =>
      cases hv
      cases hw
      refine coupled_bound hE ih hid hargs W hσ hc hf ⟨hst, hst', ?_⟩
      exact List.forall₂_iff_zip.mpr ⟨hlen, fun hmem => ⟨hvec _ hmem, htwin _ hmem⟩⟩

theorem twins_faithful (E : Images) : (twins E).Faithful where
  data _ d := .data d
  peers h := by
    cases Twin.peers h with
    | data d => exact .data d
    | function hr => exact .function ⟨hr.1, h⟩

end ClosureConversion
