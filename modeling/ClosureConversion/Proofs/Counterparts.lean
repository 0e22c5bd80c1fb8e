import ClosureConversion.Proofs.Simulation
import ClosureConversion.Proofs.Symbolic

/-!
Two codes of one scope tree.

If the scopes of a session are compiled at other times, they have other code: where the one code has
a function, the other has a lambda that is compiled when it is first met, and functions have other
labels and carriers other shapes.  `Counterpart`: the same data, or functions of one scope that captured
counterparts.

* `Translates.symbolic`: the code of a body is code of the body with placeholders, so that two codes of
  one scope are translations of the same body.
* `apace_translates`: the two codes of a body run alike.
* `coupledCalls_counterparts`: counterparts do alike to counterparts, at every depth of calls.
-/

namespace ClosureConversion

/-- Two lists, element by element as in a third. -/
theorem Lists.forall₂_of_zip {α β γ : Type} {R : β → γ → Prop} {as : List α} {bs : List β}
    {cs : List γ} (hb : as.length = bs.length) (hc : as.length = cs.length)
    (h : ∀ a b c, (a, b) ∈ as.zip bs → (a, c) ∈ as.zip cs → R b c) : List.Forall₂ R bs cs := by
  induction as generalizing bs cs with
  | nil =>
    obtain rfl := List.length_eq_zero_iff.mp hb.symm
    obtain rfl := List.length_eq_zero_iff.mp hc.symm
    exact .nil
  | cons a as ih =>
    cases bs with
    | nil => cases hb
    | cons b bs =>
      cases cs with
      | nil => cases hc
      | cons c cs =>
        refine .cons (h a b c List.mem_cons_self List.mem_cons_self) ?_
        refine ih (Nat.succ.inj hb) (Nat.succ.inj hc) fun a b c hab hac => ?_
        exact h a b c (List.mem_cons_of_mem _ hab) (List.mem_cons_of_mem _ hac)

/-! ## Translations of one body -/

namespace Translates

variable {vars : String → Ty → Prop} {E : Images} {sc : Scope} {src tgt : Expr}

/-- The function of a scope stands for it. -/
theorem stands_function {im : Image} {c : ScopeId} {f : Closure} (hE : E.Sound vars)
    (hid : E c = some im) (hc : im.scope.carried = none) (hcode : im.code = .function f)
    (frame : Frame) : im.Stands frame (.delegate c f) := by
  obtain ⟨x, code⟩ := im
  cases hcode
  obtain rfl : x.id = c := (hE c _ hid).1
  exact .function hc

/-- It does not matter whether the body holds the function of a scope or its placeholder. -/
theorem symbolic (h : Translates vars E sc src tgt) (hE : E.Sound vars) :
    Translates vars E sc src.symbolic tgt := by
  induction h with
  | own hp => exact .own hp
  | captured hf => exact .captured hf
  | argument hf => exact .argument hf
  | var hty hf => exact .var hty hf
  | placeholder hid hst => exact .placeholder hid hst
  | delegate hid hc hcode => exact .placeholder hid (stands_function hE hid hc hcode _)
  | @literal e hp hchild =>
    have hsame : e.symbolic = e := by
      cases e with
      | binary | unary | compare | logical | cond | call => cases hchild
      | void | bool _ | int _ | number _ | string _ => rfl
      | _ => cases hp
    rw [hsame]
    exact .literal hp hchild
  | binary _ _ ihl ihr => exact .binary ihl ihr
  | unary _ ih => exact .unary ih
  | compare _ _ ihl ihr => exact .compare ihl ihr
  | logical _ _ ihl ihr => exact .logical ihl ihr
  | cond _ _ _ ihc ihy ihn => exact .cond ihc ihy ihn
  | @call f f' as as' _ hlen _ ihf ihas =>
    rw [Term.symbolic, Term.symbolicAll_eq_map]
    refine .call ihf (by rw [List.length_map, hlen]) fun a a' ha => ?_
    rw [List.zip_map_left] at ha
    obtain ⟨⟨b, b'⟩, hb, he⟩ := List.mem_map.mp ha
    cases he
    exact ihas b b' hb

/-- A parameter is the scope's own, or captured. -/
theorem of_loc {v : LocalId} (h : Translates vars E sc (.loc v) tgt) :
    tgt = .loc v ∧ v ∈ sc.params.map Param.id ∨ sc.Fetches (.loc v) tgt := by
  cases h with
  | own hp => exact .inl ⟨rfl, List.mem_map_of_mem hp⟩
  | captured hf => exact .inr hf
  | literal hp _ => cases hp

theorem eq_of_literal (h : Translates vars E sc src tgt) (hp : src.isPlain = true)
    (hc : src.children = []) : tgt = src := by
  cases h with
  | literal _ _ => rfl
  | binary | unary | compare | logical | cond | call => cases hc
  | _ => cases hp

end Translates

/-! ## Counterparts -/

/-- A setting of which only the code matters. -/
def Images.setting (E : Images) : Setting := ⟨∅, E, fun _ => .any, ⟨[], []⟩⟩

/-- The labels in the two runs, and how many functions that capture something they have made. -/
structure Worlds where
  left : World
  right : World
  made : Nat

/-- The second has the labels of the first. -/
structure Worlds.Le (W W' : Worlds) : Prop where
  left : W.left.Sub W'.left
  right : W.right.Sub W'.right

theorem Worlds.Le.refl (W : Worlds) : W.Le W := ⟨.refl _, .refl _⟩

theorem Worlds.Le.trans {W₁ W₂ W₃ : Worlds} (h : W₁.Le W₂) (k : W₂.Le W₃) : W₁.Le W₃ :=
  ⟨h.left.trans k.left, h.right.trans k.right⟩

/-- The same data, or functions of one scope that captured counterparts. -/
inductive Counterpart (E F : Images) (W : Worlds) : Value → Value → Prop
  | data (d : Datum Empty) : Counterpart E F W d.lift d.lift
  | shared {id : ScopeId} {im im' : Image} {label label' : Label} {body body' : Expr} :
      E id = some im → F id = some im' → im.scope.carried = none →
      im.code.Runs label (im.scope.params.map Param.id) body →
      im'.code.Runs label' (im.scope.params.map Param.id) body' →
      W.left (.shared id) = some label → W.right (.shared id) = some label' →
      Counterpart E F W (.function (.code label (im.scope.params.map Param.id) body))
        (.function (.code label' (im.scope.params.map Param.id) body'))
  | fresh {n : Nat} {id : ScopeId} {im im' : Image} {c c' : Carried} {f f' : Closure}
      {label label' : Label} {first first' : Value} {vs ws : List Value} :
      E id = some im → F id = some im' → im.scope.carried = some c → im'.scope.carried = some c' →
      im.code = .function f → im'.code = .function f' →
      W.left (.fresh n) = some label → W.right (.fresh n) = some label' →
      Stores c.layout.segments vs first → Stores c'.layout.segments ws first' →
      c.env.slots.length = vs.length → vs.length = ws.length →
      (∀ p ∈ vs.zip ws, Counterpart E F W p.1 p.2) →
      Counterpart E F W (.function (.bound label im.scope.params.length first f))
        (.function (.bound label' im.scope.params.length first' f'))

variable {vars : String → Ty → Prop} {E F : Images} {W W' : Worlds} {v w v' w' : Value}

namespace Counterpart

theorem mono (h : Counterpart E F W v w) (hW : W.Le W') : Counterpart E F W' v w := by
  induction h with
  | data d => exact .data d
  | shared hid hid' hc hr hr' hl hl' =>
    exact .shared hid hid' hc hr hr' (hW.left _ _ hl) (hW.right _ _ hl')
  | fresh hid hid' hc hc' hf hf' hl hl' hst hst' hslots hlen _ ih =>
    exact .fresh hid hid' hc hc' hf hf' (hW.left _ _ hl) (hW.right _ _ hl') hst hst' hslots hlen ih

/-- The same data, or functions of as many parameters whose labels belong together. -/
theorem peers (h : Counterpart E F W v w) :
    Peers (fun f g : Closure => f.arity = g.arity ∧
      ∃ i, W.left i = some f.label ∧ W.right i = some g.label) v w := by
  cases h with
  | data d => exact .data d
  | shared _ _ _ _ _ hl hl' => exact .function ⟨rfl, _, hl, hl'⟩
  | fresh _ _ _ _ _ _ hl hl' _ _ _ _ _ => exact .function ⟨rfl, _, hl, hl'⟩

theorem conforms_eq (h : Counterpart E F W v w) (ty : Ty) : v.conforms ty = w.conforms ty :=
  h.peers.conforms_eq (fun _ _ hr => hr.1) ty

/-- Labels belong together in one way only. -/
theorem same_eq (hl : ∀ i j l, W.left i = some l → W.left j = some l → i = j)
    (hr : ∀ i j l, W.right i = some l → W.right j = some l → i = j) (h : Counterpart E F W v w)
    (h' : Counterpart E F W v' w') : v.same v' = w.same w' := by
  refine h.peers.same_eq h'.peers fun f g f' g' hf hf' => ?_
  obtain ⟨-, i, hi, hi'⟩ := hf
  obtain ⟨-, j, hj, hj'⟩ := hf'
  show (f.label == f'.label) = (g.label == g'.label)
  rw [Bool.eq_iff_iff, beq_iff_eq, beq_iff_eq]
  constructor
  · intro e
    obtain rfl := hl i j _ hi (e ▸ hj)
    exact Option.some.inj (hi'.symm.trans hj')
  · intro e
    obtain rfl := hr i j _ hi' (e ▸ hj')
    exact Option.some.inj (hi.symm.trans hj)

end Counterpart

/-- Two runs, each of its own code. -/
def counterparts (E F : Images) : Coupling where
  World := Worlds
  le := Worlds.Le
  refl := .refl
  trans := .trans
  ties W σ τ := Tracks E.setting W.left W.made σ ∧ Tracks F.setting W.right W.made τ
  values := Counterpart E F
  mono hW h := h.mono hW
  scalar _ d _ := .data d
  akin h := h.peers.akin
  conforms h := h.conforms_eq
  same ht h h' := h.same_eq ht.1.inj ht.2.inj h'

theorem counterparts_faithful (E F : Images) : (counterparts E F).Faithful where
  data _ d := .data d
  peers h := by
    cases Counterpart.peers h with
    | data d => exact .data d
    | function hr => exact .function ⟨hr.1, h⟩

/-- The scopes have the same body, but for when the scopes within are compiled, and capture the same
values. -/
structure Scope.Mirrors (sc sc' : Scope) : Prop where
  id : sc.id = sc'.id
  params : sc.params = sc'.params
  env : sc.env? = sc'.env?
  body : sc.body.symbolic = sc'.body.symbolic

theorem Scope.Mirrors.symm {sc sc' : Scope} (h : sc.Mirrors sc') : sc'.Mirrors sc :=
  ⟨h.id.symm, h.params.symm, h.env.symm, h.body.symm⟩

theorem Scope.Mirrors.none {sc sc' : Scope} (h : sc.Mirrors sc') (hc : sc.carried = none) :
    sc'.carried = none := by
  have henv := h.env
  unfold Scope.env? at henv
  rw [hc] at henv
  exact Option.map_eq_none_iff.mp henv.symm

theorem Scope.Mirrors.exists_carried {sc sc' : Scope} (h : sc.Mirrors sc') {c : Carried}
    (hc : sc.carried = some c) : ∃ c', sc'.carried = some c' ∧ c'.env = c.env := by
  have henv := h.env
  unfold Scope.env? at henv
  rw [hc] at henv
  exact Option.map_eq_some_iff.mp henv.symm

theorem Scope.Mirrors.env_eq {sc sc' : Scope} (h : sc.Mirrors sc') {c c' : Carried}
    (hc : sc.carried = some c) (hc' : sc'.carried = some c') : c'.env = c.env := by
  obtain ⟨_, hsome, henv⟩ := h.exists_carried hc
  rwa [Option.some.inj (hc'.symm.trans hsome)]

/-- What holds of the code of a scope tree. -/
structure Images.Proper (vars : String → Ty → Prop) (E : Images) : Prop where
  sound : E.Sound vars
  inj : ∀ a b im im', E a = some im → E b = some im' → im.code.label = im'.code.label → a = b
  carrier : ∀ id im c, E id = some im → im.scope.carried = some c →
    c.param.id ∉ im.scope.params.map Param.id
  captured : ∀ id im c x, E id = some im → im.scope.carried = some c → x ∈ c.env.slots →
    ∀ v, x.value = .loc v → v ∉ im.scope.params.map Param.id

/-- Two codes of one scope tree. -/
structure Images.Mirror (vars : String → Ty → Prop) (E F : Images) : Prop where
  left : E.Proper vars
  right : F.Proper vars
  scope : ∀ id im im', E id = some im → F id = some im' → im.scope.Mirrors im'.scope

/-! ## Reading captured values -/

/-- Code for the body of the scope runs here in both runs. -/
structure Facing (E F : Images) (W : Worlds) (sc sc' : Scope) (ctx ctx' : Context) : Prop where
  own : ∀ p ∈ sc.params, ∃ v w, ctx.locals.lookup p.id = some v ∧
    ctx'.locals.lookup p.id = some w ∧ Counterpart E F W v w
  carried : ∀ c c', sc.carried = some c → sc'.carried = some c' → ∃ first first' vs ws,
    ctx.locals.lookup c.param.id = some first ∧ ctx'.locals.lookup c'.param.id = some first' ∧
    Stores c.layout.segments vs first ∧ Stores c'.layout.segments ws first' ∧
    c.env.slots.length = vs.length ∧ List.Forall₂ (Counterpart E F W) vs ws

section

variable {sc sc' : Scope} {call call' : Closure → List Value → EvalM Value} {ctx ctx' : Context}

theorem Facing.mono (hW : W.Le W') (h : Facing E F W sc sc' ctx ctx') :
    Facing E F W' sc sc' ctx ctx' where
  own p hp := by
    obtain ⟨v, w, hv, hw, hr⟩ := h.own p hp
    exact ⟨v, w, hv, hw, hr.mono hW⟩
  carried c c' hc hc' := by
    obtain ⟨first, first', vs, ws, hf, hf', hst, hst', hlen, hr⟩ := h.carried c c' hc hc'
    exact ⟨first, first', vs, ws, hf, hf', hst, hst', hlen, hr.imp fun _ _ hr => hr.mono hW⟩

variable (hsc : sc.Mirrors sc')
  (hl : ∀ c, sc.carried = some c → Segments 0 c.env.types c.layout.segments)
  (hl' : ∀ c, sc'.carried = some c → Segments 0 c.env.types c.layout.segments)
  (h : Facing E F W sc sc' ctx ctx')

include hsc hl hl' h

/-- What the two codes read from the two carriers. -/
theorem Facing.read {c c' : Carried} (hc : sc.carried = some c) (hc' : sc'.carried = some c')
    {x : Capture} {i : Nat} (hi : c.env.indexOf? x = some i) {e e' : Expr} (he : c.read i = .ok e)
    (he' : c'.read i = .ok e') :
    ∃ v w, Yields call ctx e v ∧ Yields call' ctx' e' w ∧ Counterpart E F W v w := by
  have henv := hsc.env_eq hc hc'
  obtain ⟨first, first', vs, ws, hf, hf', hst, hst', hslots, hr⟩ := h.carried c c' hc hc'
  have hlen := hr.length_eq
  have htypes : vs.length = c.env.types.length := by
    rw [← hslots, Env.types, List.length_map]
  have htypes' : ws.length = c'.env.types.length := by
    rw [henv, ← hlen, htypes]
  have hv : i < vs.length := hslots ▸ (List.findIdx?_eq_some_iff_getElem.mp hi).1
  have hw : i < ws.length := hlen ▸ hv
  exact ⟨vs[i], ws[i],
    yields_access (hl c hc) hst htypes (yields_loc hf) he (List.getElem?_eq_getElem hv),
    yields_access (hl' c' hc') hst' htypes' (yields_loc hf') he' (List.getElem?_eq_getElem hw),
    hr.get hv hw⟩

theorem Facing.fetch {x : Capture} {e e' : Expr} (he : sc.Fetches x e) (he' : sc'.Fetches x e') :
    ∃ v w, Yields call ctx e v ∧ Yields call' ctx' e' w ∧ Counterpart E F W v w := by
  obtain ⟨c, i, hc, hi, hr⟩ := he
  obtain ⟨c', i', hc', hi', hr'⟩ := he'
  rw [hsc.env_eq hc hc', hi] at hi'
  obtain rfl := Option.some.inj hi'
  exact h.read hsc hl hl' hc hc' hi hr hr'

/-- What the scope supplies to the carriers of its children. -/
theorem Facing.gives {x : Slot} {e e' : Expr} (he : sc.frame.Gives x e)
    (he' : sc'.frame.Gives x e') :
    ∃ v w, Yields call ctx e v ∧ Yields call' ctx' e' w ∧ Counterpart E F W v w := by
  have hid := hsc.id
  generalize hf : sc.frame = f at he
  generalize hf' : sc'.frame = f' at he'
  cases he with
  | own ho hval hmem =>
    cases hf
    cases he' with
    | own _ hval' _ =>
      obtain rfl := Capture.loc.inj (hval.symm.trans hval')
      obtain ⟨p, hp, rfl⟩ := List.mem_map.mp hmem
      obtain ⟨v, w, hv, hw, hr⟩ := h.own p hp
      exact ⟨v, w, yields_loc hv, yields_loc hw, hr⟩
    | forwarded ho' _ _ => exact absurd (ho.trans (hid.trans (Frame.scope.inj hf').1)) ho'
    | args _ => cases hf'
    | var _ => cases hf'
  | @forwarded _ _ c _ _ _ ho hi hr =>
    obtain ⟨hid₁, -, hc⟩ := Frame.scope.inj hf
    cases he' with
    | own ho' _ _ =>
      exact absurd (ho'.trans ((Frame.scope.inj hf').1.symm.trans (hid.symm.trans hid₁))) ho
    | @forwarded _ _ c' _ _ _ _ hi' hr' =>
      exact h.fetch hsc hl hl' ⟨c, _, hc, hi, hr⟩ ⟨c', _, (Frame.scope.inj hf').2.2, hi', hr'⟩
    | args _ => cases hf'
    | var _ => cases hf'
  | args _ => cases hf
  | var _ => cases hf

end

/-! ## Tokens -/

section

variable {call call' : Closure → List Value → EvalM Value} {ctx ctx' : Context}
  {frame frame' : Frame} {id : ScopeId} {σ τ : Store}

theorem checkFields_congr {vs ws : List Value} (h : List.Forall₂ (Counterpart E F W) vs ws)
    (types : List Ty) : Datum.checkFields vs types = Datum.checkFields ws types := by
  induction h generalizing types with
  | nil => rfl
  | cons hv _ ih =>
    cases types with
    | nil => rfl
    | cons ty types =>
      simp only [Datum.checkFields, Datum.checked, wrongType, hv.conforms_eq ty,
        hv.peers.akin.kind_eq, ih]
      split
      · rfl
      · rfl

section

variable {im im' : Image} (hM : E.Mirror vars F) (hid : E id = some im) (hid' : F id = some im')
  (ht : (counterparts E F).ties W σ τ)

include hM hid hid' ht

/-- Both codes of a scope that captures nothing make or find its function. -/
theorem coupled_static (hc : im.scope.carried = none) {e e' : Expr} (hst : im.Stands frame e)
    (hst' : im'.Stands frame' e') :
    Coupled (counterparts E F) (Counterpart E F) W (e.eval call ctx σ) (e'.eval call' ctx' τ) := by
  have hsc := hM.scope id im im' hid hid'
  obtain ⟨WL, σ', label, body, hrun, hsub, htl, hl, hr⟩ :=
    exists_shared call ctx (hM.left.sound id im hid).2 hM.left.inj ht.1 hid hc hst
  obtain ⟨WR, τ', label', body', hrun', hsub', htr, hl', hr'⟩ :=
    exists_shared call' ctx' (hM.right.sound id im' hid').2 hM.right.inj ht.2 hid' (hsc.none hc) hst'
  rw [← hsc.params] at hrun' hr'
  have hW : W.Le ⟨WL, WR, W.made⟩ := ⟨hsub, hsub'⟩
  rw [hrun, hrun']
  exact Coupled.ok (C := counterparts E F) hW ⟨htl, htr⟩ (.shared hid hid' hc hr hr' hl hl')

end

/-- Both codes of a scope that captures values make a function that has them. -/
theorem coupled_capture {x x' : Scope} {f f' : Closure} {c c' : Carried} (hM : E.Mirror vars F)
    (hid : E id = some ⟨x, .function f⟩) (hid' : F id = some ⟨x', .function f'⟩)
    (hc : x.carried = some c) (hc' : x'.carried = some c') {vs ws : List Value}
    (hlen : c.env.slots.length = vs.length) (hr : List.Forall₂ (Counterpart E F W) vs ws)
    (ht : (counterparts E F).ties W σ τ) :
    Coupled (counterparts E F) (Counterpart E F) W (c.layout.capture f x.params.length vs σ)
      (c'.layout.capture f' x'.params.length ws τ) := by
  have hsc := hM.scope id _ _ hid hid'
  have hparams : x.params = x'.params := hsc.params
  have henv : c'.env = c.env := hsc.env_eq hc hc'
  have htypes : vs.length = c.env.types.length := by rw [← hlen, Env.types, List.length_map]
  have hmade := captures_capture (hM.left.sound id _ hid).2 hc htypes ht.1
  have hmade' := captures_capture (hM.right.sound id _ hid').2 hc' (henv ▸ hr.length_eq ▸ htypes) ht.2
  have hcheck : Datum.checkFields (checkOrder vs) (checkOrder c.env.types) =
      Datum.checkFields (checkOrder ws) (checkOrder c'.env.types) := by
    rw [henv]
    exact checkFields_congr (forall₂_checkOrder hr) _
  rw [← hparams] at hmade' ⊢
  generalize c.layout.capture f x.params.length vs σ = o at hmade ⊢
  generalize c'.layout.capture f' x.params.length ws τ = p at hmade' ⊢
  cases hmade with
  | error hk htl =>
    cases hmade' with
    | ok hk' _ _ _ _ =>
      rw [hcheck, hk'] at hk
      cases hk
    | error hk' htr =>
      rw [hcheck, hk'] at hk
      cases hk
      exact Coupled.error (C := counterparts E F) (.refl W) ⟨htl, htr⟩
  | @ok WL first label _ hk hst hsub htl hl =>
    cases hmade' with
    | error hk' _ =>
      rw [hcheck, hk'] at hk
      cases hk
    | @ok WR first' label' _ _ hst' hsub' htr hl' =>
      have hW : W.Le ⟨WL, WR, W.made + 1⟩ := ⟨hsub, hsub'⟩
      refine Coupled.ok (C := counterparts E F) hW ⟨htl, htr⟩ ?_
      refine .fresh hid hid' hc hc' rfl rfl hl hl' hst hst' hlen hr.length_eq fun p hp => ?_
      exact ((List.forall₂_iff_zip.mp hr).2 hp).mono hW

/-- What stands for a scope in the two codes makes counterparts. -/
theorem apace_stands {im im' : Image} (hM : E.Mirror vars F) (hid : E id = some im)
    (hid' : F id = some im') {e e' : Expr} (hst : im.Stands frame e) (hst' : im'.Stands frame' e')
    {A : Worlds → Prop} (hA : ∀ {W W'}, W.Le W' → A W → A W')
    (hgive : ∀ x e e', frame.Gives x e → frame'.Gives x e' →
      Apace (counterparts E F) A (e.eval call ctx) (e'.eval call' ctx')) :
    Apace (counterparts E F) A (e.eval call ctx) (e'.eval call' ctx') := by
  intro W σ τ ha ht
  have hsc := hM.scope id im im' hid hid'
  cases hc : im.scope.carried with
  | none => exact coupled_static hM hid hid' ht hc hst hst'
  | some c =>
    obtain ⟨c', hc', henv⟩ := hsc.exists_carried hc
    cases hst with
    | function h => exact absurd (h.symm.trans hc) nofun
    | lambda h => exact absurd (h.symm.trans hc) nofun
    | @bind x _ f es h hg =>
      obtain rfl := Option.some.inj (h.symm.trans hc)
      cases hst' with
      | function h' => exact absurd (h'.symm.trans hc') nofun
      | lambda h' => exact absurd (h'.symm.trans hc') nofun
      | @bind x' _ f' es' h' hg' =>
        obtain rfl := Option.some.inj (h'.symm.trans hc')
        rw [henv] at hg'
        have htypes : ∀ {env : Env} {es : List Expr}, env.slots.length = es.length →
            es.length = env.types.length := fun h => by rw [Env.types, List.length_map, h]
        rw [eval_bind ((hM.left.sound id _ hid).2.layout _ h) (htypes hg.length_eq),
          eval_bind ((hM.right.sound id _ hid').2.layout _ h') (htypes (henv ▸ hg'.length_eq))]
        have hall : List.Forall₂ (fun e e' => Apace (counterparts E F) A (e.eval call ctx)
            (e'.eval call' ctx')) es es' :=
          Lists.forall₂_of_zip hg.length_eq hg'.length_eq fun y e e' he he' =>
            hgive y e e' ((List.forall₂_iff_zip.mp hg).2 he) ((List.forall₂_iff_zip.mp hg').2 he')
        have hrun := Apace.evalAll hA hall ha ht
        generalize hx : Term.evalAll call ctx es σ = o, hy : Term.evalAll call' ctx' es' τ = p at hrun
        cases hrun with
        | error hle ht =>
          rw [Outcome.bind_error hx, Outcome.bind_error hy]
          exact .error hle ht
        | ok hle ht hr =>
          rw [Outcome.bind_ok hx, Outcome.bind_ok hy]
          have hlen := hg.length_eq.trans (length_evalAll hx).symm
          exact (coupled_capture hM hid hid' h h' hlen hr ht).of_le hle

end

/-! ## Bodies -/

section

variable {call call' : Closure → List Value → EvalM Value} {ctx ctx' : Context} {sc sc' : Scope}

/-- Where the two runs read counterparts. -/
theorem apace_of_yields {A : Worlds → Prop} {e e' : Expr}
    (h : ∀ W, A W → ∃ v w, Yields call ctx e v ∧ Yields call' ctx' e' w ∧ Counterpart E F W v w) :
    Apace (counterparts E F) A (e.eval call ctx) (e'.eval call' ctx') := by
  intro W σ τ ha ht
  obtain ⟨v, w, hv, hw, hr⟩ := h W ha
  rw [hv, hw]
  exact Coupled.ok (C := counterparts E F) (.refl W) ht hr

/-- A position of the argument vector, which both runs have. -/
theorem apace_argument {A : Worlds → Prop} {e e' : Expr} {i : Nat} {ty : Ty}
    (h : Apace (counterparts E F) A (e.eval call ctx) (e'.eval call' ctx')) :
    Apace (counterparts E F) A ((Term.arg e i ty).eval call ctx)
      ((Term.arg e' i ty).eval call' ctx') := by
  intro W σ τ ha ht
  unfold Term.eval
  refine (h W σ τ ha ht).bind fun W₁ v w σ₁ τ₁ _ ht₁ hv => ?_
  cases Counterpart.peers hv with
  | data d =>
    cases d with
    | array items =>
      simp only [Datum.lift_array, List.getElem?_map, List.length_map]
      cases items[i]? with
      | none => exact .fail _ ht₁
      | some d =>
        exact .ofExcept ht₁ ((counterparts E F).checked (W := W₁) (Counterpart.data d) ty)
    | function x => exact x.elim
    | _ => exact .fail _ ht₁
  | function _ => exact .fail _ ht₁

/-- The two codes of a body run alike. -/
theorem apace_translates (hM : E.Mirror vars F) (hcall : CoupledCalls (counterparts E F) call call')
    (hsc : sc.Mirrors sc')
    (hl : ∀ c, sc.carried = some c → Segments 0 c.env.types c.layout.segments)
    (hl' : ∀ c, sc'.carried = some c → Segments 0 c.env.types c.layout.segments)
    (hcap : ∀ c x, sc.carried = some c → x ∈ c.env.slots → ∀ v, x.value = .loc v →
      v ∉ sc.params.map Param.id) {src tgt tgt' : Expr}
    (h : Translates vars E sc src tgt) (h' : Translates vars F sc' src tgt') :
    Apace (counterparts E F) (fun W => Facing E F W sc sc' ctx ctx') (tgt.eval call ctx)
      (tgt'.eval call' ctx') := by
  have hnotown : ∀ {c v i}, sc.carried = some c → c.env.indexOf? (.loc v) = some i →
      v ∉ sc.params.map Param.id := by
    intro c v i hc hi
    obtain ⟨hlt, hval, -⟩ := List.findIdx?_eq_some_iff_getElem.mp hi
    exact hcap c _ hc (List.getElem_mem hlt) v (beq_iff_eq.mp hval)
  -- Both codes are of one body, so that they have the same form; only a parameter has two codes, and
  -- then it would be the scope's own in one run and captured in the other.
  induction h generalizing tgt' with
  | @own p hp =>
    rcases h'.of_loc with ⟨rfl, -⟩ | hf
    · refine apace_of_yields fun W hb => ?_
      obtain ⟨v, w, hv, hw, hr⟩ := hb.own p hp
      exact ⟨v, w, yields_loc hv, yields_loc hw, hr⟩
    · obtain ⟨c', i, hc', hi, -⟩ := hf
      obtain ⟨c, hc, henv⟩ := hsc.symm.exists_carried hc'
      exact absurd (List.mem_map_of_mem hp) (hnotown hc (henv ▸ hi))
  | captured hf =>
    rcases h'.of_loc with ⟨-, hmem⟩ | hf'
    · obtain ⟨c, i, hc, hi, -⟩ := hf
      rw [← hsc.params] at hmem
      exact absurd hmem (hnotown hc hi)
    · exact apace_of_yields fun W hb => hb.fetch hsc hl hl' hf hf'
  | argument hf =>
    cases h' with
    | literal hp _ => cases hp
    | argument hf' => exact apace_argument (apace_of_yields fun W hb => hb.fetch hsc hl hl' hf hf')
  | var _ hf =>
    cases h' with
    | literal hp _ => cases hp
    | var _ hf' => exact apace_of_yields fun W hb => hb.fetch hsc hl hl' hf hf'
  | placeholder hid hst =>
    cases h' with
    | literal hp _ => cases hp
    | placeholder hid' hst' =>
      exact apace_stands hM hid hid' hst hst' Facing.mono fun x e e' he he' =>
        apace_of_yields fun W hb => hb.gives hsc hl hl' he he'
  | delegate hid hc hcode =>
    cases h' with
    | literal hp _ => cases hp
    | delegate hid' hc' hcode' =>
      exact apace_stands hM hid hid' (Translates.stands_function hM.left.sound hid hc hcode sc.frame)
        (Translates.stands_function hM.right.sound hid' hc' hcode' sc'.frame) Facing.mono
        fun x e e' he he' => apace_of_yields fun W hb => hb.gives hsc hl hl' he he'
  | @literal e hp hchild =>
    rw [h'.eq_of_literal hp hchild]
    cases e with
    | void => exact Apace.literal (d := .void) rfl
    | bool b => exact Apace.literal (d := .bool b) rfl
    | int k => exact Apace.literal (d := .int k) rfl
    | number x => exact Apace.literal (d := .number x) rfl
    | string s => exact Apace.literal (d := .string s) rfl
    | binary | unary | compare | logical | cond | call => cases hchild
    | _ => cases hp
  | binary _ _ ihl ihr =>
    cases h' with
    | literal _ hc => cases hc
    | binary hl' hr' => exact .binary Facing.mono (ihl hl') (ihr hr') _
  | unary _ ih =>
    cases h' with
    | literal _ hc => cases hc
    | unary he => exact .unary Facing.mono (ih he) _
  | compare _ _ ihl ihr =>
    cases h' with
    | literal _ hc => cases hc
    | compare hl' hr' => exact .compare Facing.mono (ihl hl') (ihr hr') _
  | logical _ _ ihl ihr =>
    cases h' with
    | literal _ hc => cases hc
    | logical hl' hr' => exact .logical Facing.mono (ihl hl') (ihr hr') _
  | cond _ _ _ ihc ihy ihn =>
    cases h' with
    | literal _ hc => cases hc
    | cond hc' hy' hn' => exact .cond Facing.mono (ihc hc') (ihy hy') (ihn hn')
  | call _ hlen _ ihf ihas =>
    cases h' with
    | literal _ hc => cases hc
    | call hf' hlen' has' =>
      refine .invoke Facing.mono hcall (ihf hf') ?_
      exact Lists.forall₂_of_zip hlen hlen' fun a b b' hb hb' => ihas a b hb (has' a b' hb')

end

/-! ## Calls -/

section

variable {depth : Nat} {id : ScopeId} {im im' : Image} {body body' : Expr} {vs ws : List Value}
  {σ τ : Store} (hM : E.Mirror vars F)
  (ih : CoupledCalls (counterparts E F) (Closure.invoke depth) (Closure.invoke depth))
  (hid : E id = some im) (hid' : F id = some im') (hargs : List.Forall₂ (Counterpart E F W) vs ws)
  (ht : (counterparts E F).ties W σ τ)

include hM ih hid hid' hargs ht

/-- A call runs the body in both runs, or reports the number of arguments in both. -/
theorem coupled_bodies {g g' : Closure} (locals locals' : List (LocalId × Value))
    (htr : Translates vars E im.scope im.scope.body body)
    (htr' : Translates vars F im'.scope im'.scope.body body')
    (henter : g.enter vs = if vs.length = im.scope.params.length then .ok (locals, body)
      else .error (.argumentCount im.scope.params.length vs.length))
    (henter' : g'.enter ws = if ws.length = im.scope.params.length then .ok (locals', body')
      else .error (.argumentCount im.scope.params.length ws.length))
    (hb : vs.length = im.scope.params.length →
      Facing E F W im.scope im'.scope ⟨locals, none⟩ ⟨locals', none⟩) :
    Coupled (counterparts E F) (Counterpart E F) W (g.invoke (depth + 1) vs σ)
      (g'.invoke (depth + 1) ws τ) := by
  have hsc := hM.scope id im im' hid hid'
  unfold Closure.invoke
  rw [henter, henter', ← hargs.length_eq]
  by_cases hlen : vs.length = im.scope.params.length
  · rw [if_pos hlen, if_pos hlen]
    -- with placeholders in them, the two bodies are one
    have hsrc := htr.symbolic hM.left.sound
    have hsrc' := htr'.symbolic hM.right.sound
    rw [hsc.body] at hsrc
    exact apace_translates hM ih hsc (hM.left.sound id im hid).2.layout
      (hM.right.sound id im' hid').2.layout (fun c x => hM.left.captured id im c x hid) hsrc hsrc'
      W σ τ (hb hlen) ht
  · rw [if_neg hlen, if_neg hlen]
    exact .fail _ ht

/-- The functions of a scope that captures nothing. -/
theorem coupled_shared {label label' : Label} (hc : im.scope.carried = none)
    (hr : im.code.Runs label (im.scope.params.map Param.id) body)
    (hr' : im'.code.Runs label' (im.scope.params.map Param.id) body') :
    Coupled (counterparts E F) (Counterpart E F) W
      ((Closure.code label (im.scope.params.map Param.id) body).invoke (depth + 1) vs σ)
      ((Closure.code label' (im.scope.params.map Param.id) body').invoke (depth + 1) ws τ) := by
  have htr := (hM.left.sound id im hid).2.built.translates_of_runs hr
  have htr' := (hM.right.sound id im' hid').2.built.translates_of_runs hr'
  refine coupled_bodies hM ih hid hid' hargs ht ((im.scope.params.map Param.id).zip vs)
    ((im.scope.params.map Param.id).zip ws) htr htr' ?_ ?_ fun hlen =>
      ⟨fun p hp => ?_, fun c _ hcar _ => ?_⟩
  · simp only [Closure.enter, List.length_map]
  · simp only [Closure.enter, List.length_map]
  · simpa using exists_lookup_zip hargs (by simpa using hlen) (List.mem_map_of_mem hp) []
  · rw [hc] at hcar
    cases hcar

/-- Functions of a scope that captured counterparts. -/
theorem coupled_fresh {c c' : Carried} {f f' : Closure} {label label' : Label}
    {first first' : Value} {xs ys : List Value} (hc : im.scope.carried = some c)
    (hc' : im'.scope.carried = some c') (hf : im.code = .function f) (hf' : im'.code = .function f')
    (hst : Stores c.layout.segments xs first) (hst' : Stores c'.layout.segments ys first')
    (hslots : c.env.slots.length = xs.length) (hxy : List.Forall₂ (Counterpart E F W) xs ys) :
    Coupled (counterparts E F) (Counterpart E F) W
      ((Closure.bound label im.scope.params.length first f).invoke (depth + 1) vs σ)
      ((Closure.bound label' im.scope.params.length first' f').invoke (depth + 1) ws τ) := by
  have hsc := hM.scope id im im' hid hid'
  obtain ⟨body, htr, henter⟩ := exists_enter hM.left.sound hid hc hf
  obtain ⟨body', htr', henter'⟩ := exists_enter hM.right.sound hid' hc' hf'
  rw [← hsc.params] at henter'
  refine coupled_bodies hM ih hid hid' hargs ht _ _ htr htr' (henter label first vs)
    (henter' label' first' ws) fun hcount => ⟨fun p hp => ?_, fun k k' hk hk' => ?_⟩
  · have hmem := List.mem_map_of_mem (f := Param.id) hp
    have hne : p.id ≠ c.param.id := fun e => hM.left.carrier id im c hid hc (e ▸ hmem)
    have hne' : p.id ≠ c'.param.id := fun e =>
      hM.right.carrier id im' c' hid' hc' (hsc.params ▸ e ▸ hmem)
    simp only [List.lookup_cons, beq_eq_false_iff_ne.mpr hne, beq_eq_false_iff_ne.mpr hne']
    simpa using exists_lookup_zip hargs (by simpa using hcount) hmem []
  · obtain rfl := Option.some.inj (hc.symm.trans hk)
    obtain rfl := Option.some.inj (hc'.symm.trans hk')
    exact ⟨first, first', xs, ys, by simp, by simp, hst, hst', hslots, hxy⟩

end

/-- Counterparts do alike to counterparts, however deep calls may nest. -/
theorem coupledCalls_counterparts (hM : E.Mirror vars F) (depth : Nat) :
    CoupledCalls (counterparts E F) (Closure.invoke depth) (Closure.invoke depth) := by
  induction depth with
  | zero => exact fun W f g vs ws σ τ _ _ ht => Coupled.error (C := counterparts E F) (.refl W) ht
  | succ depth ih =>
    intro W f g vs ws σ τ h hargs ht
    have h : Counterpart E F W (.function f) (.function g) := h
    have hargs : List.Forall₂ (Counterpart E F W) vs ws := hargs
    generalize hv : Datum.function f = v, hw : Datum.function g = w at h
    cases h with
    | data d =>
      cases d with
      | function x => exact x.elim
      | _ => cases hv
    | shared hid hid' hc hr hr' _ _ =>
      cases hv
      cases hw
      exact coupled_shared hM ih hid hid' hargs ht hc hr hr'
    | fresh hid hid' hc hc' hf hf' _ _ hst hst' hslots hlen hrel =>
      cases hv
      cases hw
      refine coupled_fresh hM ih hid hid' hargs ht hc hc' hf hf' hst hst' hslots ?_
      exact List.forall₂_iff_zip.mpr ⟨hlen, fun hmem => hrel _ hmem⟩

end ClosureConversion
