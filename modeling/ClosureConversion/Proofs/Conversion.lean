import ClosureConversion.Proofs.Liveness
import ClosureConversion.Proofs.Process
import ClosureConversion.Proofs.Provision

/-!
Conversion of the scopes of a front end.

A plan exists for every closed scope (`build_induction`), and converting it either gives an image to
every scope of the plan or fails because one of them declares too many parameters: `convert_cases`.

Images are made for scopes that have none: each scope is converted at most once, since a plan does
not enter compiled scopes (`Raw`) and the scopes below two children are different.
-/

namespace ClosureConversion

/-! ## The store -/

namespace Store

/-- What happens to the store: labels are used up, and only new lambdas are compiled. -/
structure Grows (σ σ' : Store) : Prop where
  next : σ.nextLabel ≤ σ'.nextLabel
  function? : ∀ l, l < σ.nextLabel → σ'.function? l = σ.function? l
  valid : σ.Valid → σ'.Valid

namespace Grows

theorem refl (σ : Store) : Grows σ σ := ⟨Nat.le_refl _, fun _ _ => rfl, id⟩

theorem trans {σ₁ σ₂ σ₃ : Store} (h : Grows σ₁ σ₂) (k : Grows σ₂ σ₃) : Grows σ₁ σ₃ where
  next := Nat.le_trans h.next k.next
  function? l hl := (k.function? l (Nat.lt_of_lt_of_le hl h.next)).trans (h.function? l hl)
  valid := k.valid ∘ h.valid

/-- Only labels are used up. -/
theorem labels {σ σ' : Store} (hn : σ.nextLabel ≤ σ'.nextLabel) (hf : σ'.functions = σ.functions) :
    Grows σ σ' where
  next := hn
  function? l _ := by rw [Store.function?, hf, Store.function?]
  valid hv p hp := by
    have := hv p (hf ▸ hp)
    exact ⟨Nat.lt_of_lt_of_le this.1 hn, Nat.lt_of_lt_of_le this.2 hn⟩

end Grows

/-- A label that is free is no compiled lambda. -/
theorem Valid.function?_eq_none {σ : Store} (h : σ.Valid) {l : Label} (hl : σ.nextLabel ≤ l) :
    σ.function? l = none := by
  unfold function?
  rw [List.lookup_eq_none_iff]
  intro p hp
  have hlt := Nat.lt_of_lt_of_le (h p hp).1 hl
  simpa using Nat.ne_of_gt hlt

end Store

namespace Lambda

/-- A lambda that passes the checks is compiled to a new function. -/
theorem compile_eq {l : Lambda} {σ : Store} (hn : σ.function? l.label = none)
    (hv : l.verify σ.isCompiled = .ok ()) :
    l.compile σ = (.ok (.code σ.nextLabel (l.params.map Param.id) l.body),
      { σ with
        nextLabel := σ.nextLabel + 1
        functions := (l.label, .code σ.nextLabel (l.params.map Param.id) l.body)
          :: σ.functions }) := by
  rw [compile_run, hn, hv]
  rfl

end Lambda

namespace ConvertM

theorem compile_eq_ok {l : Lambda} {f : Closure} {σ σ' : Store} (h : l.compile σ = (.ok f, σ')) :
    ConvertM.compile l σ = (.ok f, σ') := by
  unfold ConvertM.compile
  rw [Outcome.adapt_eq, h]
  rfl

/-- A new lambda that passes the checks is compiled. -/
theorem compile_new (params : List Param) {body : Expr} {σ : Store} (hσ : σ.Valid)
    (hp : params.length ≤ Closure.maxArity)
    (hv : ∀ known, body.verify known (params.map Param.id) false = .ok ()) :
    ∃ σ', ConvertM.compile ⟨σ.nextLabel, params, body⟩ { σ with nextLabel := σ.nextLabel + 1 } =
      (.ok (.code (σ.nextLabel + 1) (params.map Param.id) body), σ') ∧ σ.Grows σ' ∧
      σ'.nextLabel = σ.nextLabel + 2 := by
  have hnone : Store.function? { σ with nextLabel := σ.nextLabel + 1 } σ.nextLabel = none :=
    hσ.function?_eq_none (Nat.le_refl _)
  have hc := Lambda.compile_eq (l := ⟨σ.nextLabel, params, body⟩) hnone
    (by simp only [Lambda.verify, hp, if_true, hv])
  let f : Closure := .code (σ.nextLabel + 1) (params.map Param.id) body
  refine ⟨{ σ with
    nextLabel := σ.nextLabel + 2, functions := (σ.nextLabel, f) :: σ.functions },
    compile_eq_ok hc, ?_, rfl⟩
  constructor
  · exact Nat.le_add_right _ 2
  · intro l hl
    show List.lookup l (_ :: _) = _
    rw [List.lookup_cons]
    simp only [beq_eq_false_iff_ne.mpr (Nat.ne_of_lt hl)]
    rfl
  · rintro hv p hmem
    rcases List.mem_cons.mp hmem with rfl | hmem
    · exact ⟨Nat.lt_add_of_pos_right (by decide), Nat.lt_succ_self _⟩
    · have := hv p hmem
      exact ⟨Nat.lt_add_right 2 this.1, Nat.lt_add_right 2 this.2⟩

end ConvertM

/-! ## Finishing one scope -/

namespace Plan

/-- The code that a converted body becomes, between two states of the store. -/
structure Finishes (sc : Scope) (body : Expr) (σ : Store) (code : Code) (σ' : Store) : Prop where
  grows : σ.Grows σ'
  form : (∃ l, code = .function (.code l sc.frame.locals body)) ∨
    sc.carried = none ∧ ∃ l, code = .lambda l body
  above : σ.nextLabel ≤ code.label
  below : code.label < σ'.nextLabel
  lazy : ∀ l b, code = .lambda l b → σ'.function? l = none
  eager : sc.eager = true → ∃ f, code = .function f

theorem limitParams_of_le {sc : Scope} {limit : Nat} (h : sc.params.length ≤ limit) (σ : Store) :
    limitParams sc limit σ = (.ok (), σ) := by
  unfold limitParams
  rw [if_pos h]
  rfl

theorem limitParams_of_not_le {sc : Scope} {limit : Nat} (h : ¬ sc.params.length ≤ limit)
    (σ : Store) :
    limitParams sc limit σ = (.error (.tooManyParams
      (sc.params.length + (Closure.maxArity - limit)) Closure.maxArity sc.span), σ) := by
  unfold limitParams
  rw [if_neg h]
  rfl

theorem finish_of_not_fits {sc : Scope} (h : ¬ sc.Fits) (parent : Frame) (body : Expr)
    (σ : Store) :
    ∃ count limit span, finish parent sc body σ =
      (.error (.tooManyParams count limit span), σ) := by
  unfold finish
  unfold Scope.Fits Scope.limit at h
  cases hc : sc.carried with
  | none =>
    simp only [hc] at h
    exact ⟨_, _, _, Outcome.bind_error (limitParams_of_not_le h σ)⟩
  | some c =>
    simp only [hc] at h
    exact ⟨_, _, _, Outcome.bind_error (limitParams_of_not_le h σ)⟩

theorem finish_isOk {sc : Scope} {parent : Frame} {body : Expr} {σ : Store} (hfit : sc.Fits)
    (hl : ∀ c, sc.carried = some c → Segments 0 c.env.types c.layout.segments)
    (hg : ∀ c, sc.carried = some c → ∀ x ∈ c.env.slots, ∃ e, parent.Gives x e) (hσ : σ.Valid)
    (hv : ∀ known, body.verify known sc.frame.locals false = .ok ()) :
    ∃ e code σ', finish parent sc body σ = (.ok e, σ') ∧
      (⟨sc, code⟩ : Image).Stands parent e ∧ Finishes sc body σ code σ' := by
  have hnew : ∀ params, (liftM (Lambda.new params body) : ConvertM Lambda) σ =
      (.ok ⟨σ.nextLabel, params, body⟩, { σ with nextLabel := σ.nextLabel + 1 }) := fun _ => rfl
  unfold Scope.Fits Scope.limit at hfit
  unfold finish
  cases hc : sc.carried with
  | none =>
    have hlocals : sc.frame.locals = sc.params.map Param.id := by
      simp [Scope.frame, Frame.locals, hc]
    simp only [hc] at hfit
    rw [hlocals] at hv
    simp only [Outcome.bind_ok (limitParams_of_le hfit σ), Outcome.bind_ok (hnew _)]
    cases he : sc.eager with
    | true =>
      obtain ⟨σ', hk, hgrow, hnext⟩ := ConvertM.compile_new sc.params hσ hfit hv
      refine ⟨_, .function (.code (σ.nextLabel + 1) sc.frame.locals body), σ', ?_,
        .function hc, hgrow, .inl ⟨_, rfl⟩, Nat.le_succ _, ?_, by simp, fun _ => ⟨_, rfl⟩⟩
      · rw [hlocals]
        exact Outcome.bind_ok hk
      · rw [hnext]
        exact Nat.lt_succ_self _
    | false =>
      refine ⟨_, .lambda σ.nextLabel body, _, rfl, .lambda hc, ?_, .inr ⟨hc, _, rfl⟩, Nat.le_refl _,
        Nat.lt_succ_self _, ?_, by simp [he]⟩
      · exact .labels (Nat.le_succ _) rfl
      · rintro l b ⟨⟩
        exact hσ.function?_eq_none (Nat.le_refl _)
  | some c =>
    have hlocals : sc.frame.locals = (c.param :: sc.params).map Param.id := by
      simp [Scope.frame, Frame.locals, hc]
    simp only [hc] at hfit
    rw [hlocals] at hv
    obtain ⟨values, hsup, hgives⟩ := Frame.supplies_isOk sc.id (hg c hc)
    have hlen : values.length = c.env.types.length := by
      simp [Env.types, hgives.length_eq]
    have hcon := Layout.construct_eq_ok (hl c hc) hlen
    obtain ⟨σ', hk, hgrow, hnext⟩ := ConvertM.compile_new (c.param :: sc.params) hσ
      (by simpa [Closure.maxBoundArity, Closure.maxArity] using Nat.succ_le_succ hfit) hv
    have hsup' : (ConvertM.ofExcept (parent.supplies sc.id c.env)) σ = (.ok values, σ) := by
      rw [hsup]
      rfl
    have hcon' : (ConvertM.ofExcept (c.layout.construct values)) σ =
        (.ok (Layout.chain values c.layout.head c.layout.rest), σ) := by
      rw [hcon]
      rfl
    refine ⟨_, .function (.code (σ.nextLabel + 1) sc.frame.locals body), σ', ?_,
      .bind hc hgives, hgrow, .inl ⟨_, rfl⟩, Nat.le_succ _, ?_, by simp, fun _ => ⟨_, rfl⟩⟩
    · simp only [Outcome.bind_ok (limitParams_of_le hfit σ), Outcome.bind_ok hsup',
        Outcome.bind_ok hcon', Outcome.bind_ok (hnew _)]
      rw [hlocals]
      exact Outcome.bind_ok hk
    · rw [hnext]
      exact Nat.lt_succ_self _

/-! ## Plans -/

/-- The scopes of the list that are alive and still to be compiled. -/
def pendingOf (t : ScopeTable) (ids : List ScopeId) : List ScopeId :=
  ids.filter fun c => (t.get? c).any Scope.isPending

/-- How many closed scopes are as young as `id`: no chain of scopes below it is longer. -/
def rank (t : ScopeTable) (id : ScopeId) : Nat := (t.keys.filter (id ≤ ·)).length

theorem rank_le_size (t : ScopeTable) (id : ScopeId) : rank t id ≤ t.size := by
  unfold rank
  rw [← Std.TreeMap.length_keys]
  exact List.length_filter_le _ _

theorem rank_lt {t : ScopeTable} {id c : ScopeId} {sc : Scope} (h : t.get? id = some sc)
    (hlt : id < c) : rank t c < rank t id := by
  have hmem : id ∈ t.keys := by
    rw [Std.TreeMap.mem_keys, Std.TreeMap.mem_iff_isSome_getElem?]
    rw [Std.TreeMap.get?_eq_getElem?] at h
    rw [h]
    rfl
  have hsub : t.keys.filter (c ≤ ·) = (t.keys.filter (id ≤ ·)).filter (c ≤ ·) := by
    rw [List.filter_filter]
    refine List.filter_congr fun x _ => ?_
    by_cases hx : c ≤ x
    · simp [hx, Nat.le_trans (Nat.le_of_lt hlt) hx]
    · simp [hx]
  unfold rank
  rw [hsub, List.length_filter_lt_length_iff_exists]
  exact ⟨id, by simp [hmem], by simpa using hlt⟩

section

variable {t : ScopeTable} {good : ScopeId → Plan → Prop}

theorem filterMapM_visit {depth : Nat} (id : ScopeId) {cs : List ScopeId}
    (found : ∀ c ∈ cs, ∃ child, t.get? c = some child)
    (turn : ∀ c ∈ pendingOf t cs, ∀ u, ∃ p u', buildWithin t depth c u = (.ok p, u') ∧ good c p)
    (u : InputUse) :
    ∃ ps u', cs.filterMapM (visit t depth id) u = (.ok ps, u') ∧
      List.Forall₂ good (pendingOf t cs) ps := by
  induction cs generalizing u with
  | nil => exact ⟨[], u, rfl, .nil⟩
  | cons c cs ih =>
    rw [List.forall_mem_cons] at found
    obtain ⟨⟨child, hchild⟩, found⟩ := found
    rw [List.filterMapM_cons]
    by_cases hp : child.isPending = true
    · have hcons : pendingOf t (c :: cs) = c :: pendingOf t cs :=
        List.filter_cons_of_pos (by rw [hchild]; exact hp)
      rw [hcons, List.forall_mem_cons] at turn
      obtain ⟨p, u₁, hbuild, hgood⟩ := turn.1 u
      obtain ⟨ps, u₂, hps, hall⟩ := ih found turn.2 u₁
      have hv : visit t depth id c u = (.ok (some p), u₁) := by
        unfold visit
        simp only [hchild, hp, if_true]
        rw [Outcome.map_eq, hbuild]
        rfl
      rw [hcons, Outcome.bind_ok hv]
      exact ⟨p :: ps, u₂, Outcome.bind_ok hps, .cons hgood hall⟩
    · have hcons : pendingOf t (c :: cs) = pendingOf t cs :=
        List.filter_cons_of_neg (by rw [hchild]; exact hp)
      rw [hcons] at turn
      obtain ⟨ps, u₂, hps, hall⟩ := ih found turn u
      have hv : visit t depth id c u = (.ok none, u) := by
        unfold visit
        simp only [hchild, hp]
        rfl
      rw [hcons, Outcome.bind_ok hv]
      exact ⟨ps, u₂, hps, hall⟩

/-- Every closed scope has a plan, and what holds of plans when it holds of those for the pending
children holds of it. -/
theorem build_induction {around : ScopeId → List ScopeId} {os : Outline} {roots : List ScopeId}
    {fresh : ScopeId} (hf : Forest around os t roots fresh)
    (step : ∀ id sc ps, t.get? id = some sc →
      List.Forall₂ good (pendingOf t sc.children) ps → good id (.node sc ps))
    {id : ScopeId} {sc : Scope} (hsc : t.get? id = some sc) (u : InputUse) :
    ∃ p u', build t id u = (.ok p, u') ∧ good id p := by
  have main : ∀ depth, rank t id ≤ depth → ∀ u,
      ∃ p u', buildWithin t depth id u = (.ok p, u') ∧ good id p := by
    refine hf.closed_induction (P := fun id _ => ∀ depth, rank t id ≤ depth → ∀ u,
      ∃ p u', buildWithin t depth id u = (.ok p, u') ∧ good id p) ?_ hsc
    intro id sc hsc ih depth hdepth u
    cases depth with
    | zero =>
      have hlt := rank_lt hsc (Nat.lt_succ_self id)
      exact absurd hdepth (Nat.not_le_of_gt (Nat.lt_of_le_of_lt (Nat.zero_le _) hlt))
    | succ depth =>
      have found : ∀ c ∈ sc.children, ∃ child, t.get? c = some child :=
        fun c hc => (hf.closedChild id sc hsc c hc).1
      obtain ⟨ps, u', hps, hall⟩ := filterMapM_visit id found (fun c hc u => by
        have hmem := (List.mem_filter.mp hc).1
        obtain ⟨child, hchild⟩ := found c hmem
        have hlt := rank_lt hsc (hf.closedChild id sc hsc c hmem).2.1
        exact ih c hmem child hchild depth (Nat.le_of_lt_succ (Nat.lt_of_lt_of_le hlt hdepth)) u)
        (sc.env?.elim u u.add)
      refine ⟨.node sc ps, u', ?_, step id sc ps hsc hall⟩
      rw [buildWithin_succ hsc]
      exact Outcome.bind_ok hps
  exact main t.size (rank_le_size t id) u

end

end Plan

/-! ## The images so far -/

/-- `y` is `id` or lies below it. -/
def Below (around : ScopeId → List ScopeId) (id y : ScopeId) : Prop :=
  (id :: around id) <:+ (y :: around y)

/-- No closed scope from `y` outwards is compiled. -/
def Raw (t : ScopeTable) (around : ScopeId → List ScopeId) (y : ScopeId) : Prop :=
  ∀ z ∈ y :: around y, ∀ sc, t.get? z = some sc → sc.compiled = none

/-- The images are of scopes of the table, have different labels, and those of compiled scopes are
among them. -/
structure Emitted (vars : String → Ty → Prop) (t : ScopeTable) (E : Images) (σ : Store) : Prop where
  sound : E.Sound vars
  scope : ∀ id im, E id = some im → ∃ sc alive compiled, t.get? id = some sc ∧
    im.scope = { sc with alive := alive, compiled := compiled }
  compiled : ∀ id sc f, t.get? id = some sc → sc.compiled = some f →
    ∃ im, E id = some im ∧ im.scope.carried = none ∧ im.code = .function f
  below : ∀ id im, E id = some im → im.code.label < σ.nextLabel
  inj : ∀ a b im im', E a = some im → E b = some im' → im.code.label = im'.code.label → a = b
  lazy : ∀ id im l body, E id = some im → im.code = .lambda l body → σ.function? l = none
  valid : σ.Valid

/-- The second images are the first and new ones, of scopes below `ids` that are not compiled. -/
structure Extends (t : ScopeTable) (around : ScopeId → List ScopeId) (ids : List ScopeId)
    (E E' : Images) : Prop where
  sub : E.Sub E'
  fresh : ∀ y im, E y = none → E' y = some im → Raw t around y ∧ ∃ c ∈ ids, Below around c y

/-- Some living scope within `id` declares too many parameters. -/
def Overflows (t : ScopeTable) (id : ScopeId) : Prop :=
  ∃ y sc, Within t id y ∧ t.get? y = some sc ∧ sc.alive = true ∧ ¬ sc.Fits

/-- The scopes below `id` that may be converted have no images. -/
def Clear (t : ScopeTable) (around : ScopeId → List ScopeId) (E : Images) (id : ScopeId) : Prop :=
  ∀ y, Below around id y → Raw t around y → E y = none

section

variable {vars : String → Ty → Prop} {t : ScopeTable} {around : ScopeId → List ScopeId}
  {E E' E'' : Images} {σ σ' : Store} {id c y : ScopeId} {sc : Scope}

theorem Below.refl (id : ScopeId) : Below around id id := List.suffix_rfl

theorem Below.of_child (h : Below around c y) (hc : around c = id :: around id) :
    Below around id y := by
  refine List.IsSuffix.trans ?_ h
  rw [hc]
  exact List.suffix_cons c _

/-- Two scopes with the same scopes around them have nothing in common below. -/
theorem Below.eq {a b : ScopeId} (ha : Below around a y) (hb : Below around b y)
    (h : around a = around b) : a = b := by
  have hlen : (a :: around a).length = (b :: around b).length := by simp [h]
  have := List.suffix_of_suffix_length_le ha hb (Nat.le_of_eq hlen)
  exact (List.cons.inj (this.eq_of_length hlen)).1

theorem Below.not_parent (hc : around c = id :: around id) : ¬ Below around c id := by
  intro h
  have := h.length_le
  rw [hc, List.length_cons, List.length_cons] at this
  omega

theorem Within.trans {a b : ScopeId} (h : Within t a b) (k : Within t b y) : Within t a y := by
  induction k with
  | self => exact h
  | child _ hc ih => exact ih.child hc

theorem Overflows.of_child (h : Overflows t c) (hsc : t.get? id = some sc)
    (hc : c ∈ sc.children) : Overflows t id := by
  obtain ⟨y, last, hw, hy, ha, hfit⟩ := h
  have hchild : Within t id c := .child .self (ScopeTable.mem_childrenOf.mpr ⟨sc, hsc, hc⟩)
  exact ⟨y, last, hchild.trans hw, hy, ha, hfit⟩

theorem Extends.refl (ids : List ScopeId) (E : Images) : Extends t around ids E E where
  sub := .refl E
  fresh y im h h' := by
    rw [h] at h'
    cases h'

/-- One scope after the others. -/
theorem Extends.cons {ids : List ScopeId} (h : Extends t around [c] E E')
    (k : Extends t around ids E' E'') : Extends t around (c :: ids) E E'' where
  sub := h.sub.trans k.sub
  fresh y im hnone hsome := by
    cases hy : E' y with
    | some im' =>
      obtain ⟨hraw, x, hx, hb⟩ := h.fresh y im' hnone hy
      exact ⟨hraw, x, by simp [List.mem_singleton.mp hx], hb⟩
    | none =>
      obtain ⟨hraw, x, hx, hb⟩ := k.fresh y im hy hsome
      exact ⟨hraw, x, List.mem_cons_of_mem c hx, hb⟩

namespace Emitted

theorem grows (h : Emitted vars t E σ) (g : σ.Grows σ') : Emitted vars t E σ' where
  sound := h.sound
  scope := h.scope
  compiled := h.compiled
  below id im hid := Nat.lt_of_lt_of_le (h.below id im hid) g.next
  inj := h.inj
  lazy id im l body hid hcode := by
    have hlt := h.below id im hid
    rw [hcode] at hlt
    rw [g.function? l hlt]
    exact h.lazy id im l body hid hcode
  valid := g.valid h.valid

/-- The image of one more scope. -/
theorem add {body : Expr} {code : Code} (h : Emitted vars t E σ) (hnone : E id = none)
    (hsc : t.get? id = some sc) (hid : sc.id = id) (fin : Plan.Finishes sc body σ code σ')
    (ht : Translates vars E sc sc.body body) (hfit : sc.Fits)
    (hl : ∀ c, sc.carried = some c → Segments 0 c.env.types c.layout.segments) :
    Emitted vars t (E.add id ⟨sc, code⟩) σ' := by
  have hsub := Images.sub_add hnone ⟨sc, code⟩
  have hbuilt : Image.Built vars (E.add id ⟨sc, code⟩) ⟨sc, code⟩ := by
    rcases fin.form with ⟨l, rfl⟩ | ⟨hc, l, rfl⟩
    · exact .function (ht.mono hsub)
    · exact .lambda hc (ht.mono hsub) fun known => ht.verify h.sound known
  have split : ∀ {x : ScopeId} {im : Image}, E.add id ⟨sc, code⟩ x = some im →
      x = id ∧ im = ⟨sc, code⟩ ∨ E x = some im := by
    intro x im hx
    unfold Images.add at hx
    split at hx
    · next e => exact .inl ⟨e, (Option.some.inj hx).symm⟩
    · exact .inr hx
  have hold := h.grows fin.grows
  -- the label of the new code is above those in use before
  have apart : ∀ x im, E x = some im → im.code.label ≠ code.label := by
    intro x im hx
    exact Nat.ne_of_lt (Nat.lt_of_lt_of_le (h.below x im hx) fin.above)
  constructor
  case sound =>
    intro x im hx
    rcases split hx with ⟨rfl, rfl⟩ | hx
    · exact ⟨hid, hfit, hl, hbuilt⟩
    · exact ⟨(h.sound x im hx).1, (h.sound x im hx).2.mono hsub⟩
  case scope =>
    intro x im hx
    rcases split hx with ⟨rfl, rfl⟩ | hx
    · exact ⟨sc, sc.alive, sc.compiled, hsc, rfl⟩
    · exact h.scope x im hx
  case compiled =>
    intro x sc f hx hf
    obtain ⟨im, hE, hrest⟩ := h.compiled x sc f hx hf
    exact ⟨im, hsub x im hE, hrest⟩
  case below =>
    intro x im hx
    rcases split hx with ⟨rfl, rfl⟩ | hx
    · exact fin.below
    · exact hold.below x im hx
  case inj =>
    intro a b im im' ha hb hlabel
    rcases split ha with ⟨ea, rfl⟩ | ha' <;> rcases split hb with ⟨eb, rfl⟩ | hb'
    · exact ea.trans eb.symm
    · exact absurd hlabel.symm (apart b im' hb')
    · exact absurd hlabel (apart a im ha')
    · exact h.inj a b im im' ha' hb' hlabel
  case lazy =>
    intro x im l b hx hcode
    rcases split hx with ⟨rfl, rfl⟩ | hx
    · exact fin.lazy l b hcode
    · exact hold.lazy x im l b hx hcode
  case valid => exact hold.valid

end Emitted

end

/-! ## Converting a plan -/

/-- How converting the scope `sc` inside `parent` ends: it has an image, or some scope within it does
not fit. -/
inductive Converting (vars : String → Ty → Prop) (t : ScopeTable) (around : ScopeId → List ScopeId)
    (parent : Frame) (id : ScopeId) (sc : Scope) (E : Images) (σ : Store) :
    Except ConversionError Expr × Store → Prop
  | done {e : Expr} {im : Image} {E' : Images} {σ' : Store} :
      Extends t around [id] E E' → Emitted vars t E' σ' → σ.Grows σ' → E' id = some im →
      im.scope = sc → im.Stands parent e → (sc.eager = true → ∃ f, im.code = .function f) →
      Converting vars t around parent id sc E σ (.ok e, σ')
  | failed {count limit : Nat} {span : Span} {σ' : Store} :
      σ.Grows σ' → Overflows t id →
      Converting vars t around parent id sc E σ (.error (.tooManyParams count limit span), σ')

/-- The same for several scopes. -/
inductive ConvertingAll (vars : String → Ty → Prop) (t : ScopeTable)
    (around : ScopeId → List ScopeId) (parent : Frame) (ids : List ScopeId) (E : Images)
    (σ : Store) : Except ConversionError (List (ScopeId × Expr)) × Store → Prop
  | done {es : List (ScopeId × Expr)} {E' : Images} {σ' : Store} :
      Extends t around ids E E' → Emitted vars t E' σ' → σ.Grows σ' → es.map Prod.fst = ids →
      (∀ q ∈ es, ∃ im, E' q.1 = some im ∧ im.Stands parent q.2) →
      ConvertingAll vars t around parent ids E σ (.ok es, σ')
  | failed {count limit : Nat} {span : Span} {σ' : Store} {c : ScopeId} :
      σ.Grows σ' → c ∈ ids → Overflows t c →
      ConvertingAll vars t around parent ids E σ (.error (.tooManyParams count limit span), σ')

/-- A pending scope that may be converted inside `parent`. -/
structure Convertible (t : ScopeTable) (around : ScopeId → List ScopeId) (parent : Frame)
    (id : ScopeId) (sc : Scope) : Prop where
  get? : t.get? id = some sc
  alive : sc.alive = true
  raw : Raw t around id
  gives : ∀ c, sc.carried = some c → ∀ x ∈ c.env.slots, ∃ e, parent.Gives x e

/-- The plan is for `id`, and converting it ends as it should. -/
def Plan.Converts (vars : String → Ty → Prop) (t : ScopeTable) (around : ScopeId → List ScopeId)
    (id : ScopeId) (p : Plan) : Prop :=
  p.scope.id = id ∧ ∀ parent sc E σ, Convertible t around parent id sc → Emitted vars t E σ →
    Clear t around E id → Converting vars t around parent id sc E σ (p.convert parent σ)

namespace Plan

variable {vars : String → Ty → Prop} {t : ScopeTable} {around : ScopeId → List ScopeId}

theorem convertAll_cases (parent : Frame) {ids : List ScopeId} {ps : List Plan}
    (h : List.Forall₂ (Converts vars t around) ids ps) {E : Images} {σ : Store}
    (he : Emitted vars t E σ) (hnodup : ids.Nodup)
    (hcon : ∀ c ∈ ids, ∃ sc, Convertible t around parent c sc)
    (hsame : ∀ a ∈ ids, ∀ b ∈ ids, around a = around b) (hclear : ∀ c ∈ ids, Clear t around E c) :
    ConvertingAll vars t around parent ids E σ (convertAll parent ps σ) := by
  induction h generalizing E σ with
  | nil => exact .done (.refl [] E) he (.refl σ) rfl (by simp)
  | @cons c p ids ps hp _ ih =>
    rw [List.forall_mem_cons] at hcon hclear
    rw [List.nodup_cons] at hnodup
    obtain ⟨sc, hc⟩ := hcon.1
    have hres := hp.2 parent sc E σ hc he hclear.1
    unfold convertAll
    cases hconv : p.convert parent σ with
    | mk r σ₁ =>
      rw [hconv] at hres
      cases hres with
      | failed hg ho =>
        rw [Outcome.bind_error hconv]
        exact .failed hg List.mem_cons_self ho
      | @done e im E₁ _ hext he₁ hg hE₁ hsc hst _ =>
        have hclear₁ : ∀ x ∈ ids, Clear t around E₁ x := by
          intro x hx y hb hraw
          cases hy : E₁ y with
          | none => rfl
          | some im =>
            -- a new image is below `c`, and nothing is below both `c` and `x`
            obtain ⟨-, z, hz, hbz⟩ := hext.fresh y im (hclear.2 x hx y hb hraw) hy
            obtain rfl := List.mem_singleton.mp hz
            have heq := hbz.eq hb (hsame z List.mem_cons_self x (List.mem_cons_of_mem z hx))
            exact absurd (heq ▸ hx) hnodup.1
        have hall := ih he₁ hnodup.2 hcon.2
          (fun a ha b hb => hsame a (List.mem_cons_of_mem c ha) b (List.mem_cons_of_mem c hb)) hclear₁
        rw [Outcome.bind_ok hconv]
        cases hrest : convertAll parent ps σ₁ with
        | mk r σ₂ =>
          rw [hrest] at hall
          cases hall with
          | failed hg' hx ho =>
            rw [Outcome.bind_error hrest]
            exact .failed (hg.trans hg') (List.mem_cons_of_mem c hx) ho
          | @done es E₂ _ hext' he₂ hg' hes hst' =>
            rw [Outcome.bind_ok hrest]
            refine .done (hext.cons hext') he₂ (hg.trans hg') (by simp [hes, hp.1]) ?_
            rw [List.forall_mem_cons]
            exact ⟨⟨im, hp.1.symm ▸ hext'.sub c im hE₁, hst⟩, hst'⟩

end Plan

namespace Session

variable {vars : String → Ty → Prop} {offers : List (ScopeId × Expr)}
  {around : ScopeId → List ScopeId} {decl : LocalId → Option (ScopeId × Ty)} {s : Session}
  (hk : s.Known vars offers around decl) {id : ScopeId} {sc : Scope}

include hk

/-- A scope has the values that a living child captures. -/
theorem gives_child (hsc : s.closed.get? id = some sc) {c : ScopeId} {child : Scope}
    (hc : c ∈ sc.children) (hchild : s.closed.get? c = some child)
    (hac : child.alive = true) {k : Carried} (hcar : child.carried = some k) {x : Slot}
    (hx : x ∈ k.env.slots) : ∃ e, sc.frame.Gives x e := by
  have huse := ((hk.nested.aliveChild id sc hsc c hc).mp ((ScopeTable.alive_iff hchild).mpr hac)).2
  rw [← Scope.env_of_carried hcar] at hx
  exact gives_of_uses hk.nested hk.declared hk.captured hk.formed hsc huse hchild hx

/-- A pending child may be converted inside its parent. -/
theorem convertible_child {parent : Frame} (h : Convertible s.closed around parent id sc)
    {c : ScopeId} (hc : c ∈ Plan.pendingOf s.closed sc.children) :
    ∃ child, Convertible s.closed around sc.frame c child := by
  obtain ⟨hmem, hpend⟩ := List.mem_filter.mp hc
  obtain ⟨⟨child, hchild⟩, -, har⟩ := hk.nested.closedChild id sc h.get? c hmem
  rw [hchild] at hpend
  obtain ⟨hal, hnone⟩ := Bool.and_eq_true_iff.mp hpend
  refine ⟨child, hchild, hal, ?_, fun k hcar x hx =>
    gives_child hk h.get? hmem hchild hal hcar hx⟩
  intro z hz x hx
  rw [har] at hz
  rcases List.mem_cons.mp hz with rfl | hz
  · obtain rfl := Option.some.inj (hchild.symm.trans hx)
    exact Option.isNone_iff_eq_none.mp hnone
  · exact h.raw z hz x hx

/-- Once the children have images, the body is translated. -/
theorem resolveBody_of_images {E : Images} {σ : Store} (hsc : s.closed.get? id = some sc)
    (ha : sc.alive = true) (he : Emitted vars s.closed E σ) {es : List (ScopeId × Expr)}
    (hes : es.map Prod.fst = Plan.pendingOf s.closed sc.children)
    (hst : ∀ q ∈ es, ∃ im, E q.1 = some im ∧ im.Stands sc.frame q.2) :
    ∃ body, Plan.resolveBody sc.carried (es.reverse.lookup ·) sc.body = .ok body ∧
      Translates vars E sc sc.body body := by
  refine Plan.resolveBody_isOk sc _ sc.body.Uses ?_
    (fun k => hk.formed.layout id sc k hsc) ?_ ?_ (hk.supplied.bodies id sc hsc) fun _ h => h
  · intro p hp hcon
    refine (((hk.captured.balanced id sc hsc).contains _).mp hcon).1 ?_
    exact ⟨p, hp, rfl⟩
  · intro c child huse hmem hchild hnone
    have halive := (hk.nested.aliveChild id sc hsc c hmem).mpr ⟨ha, huse⟩
    have hpend : c ∈ es.map Prod.fst := by
      rw [hes]
      refine List.mem_filter.mpr ⟨hmem, ?_⟩
      rw [hchild]
      exact Bool.and_eq_true_iff.mpr ⟨(ScopeTable.alive_iff hchild).mp halive, by rw [hnone]; rfl⟩
    obtain ⟨e, he, hin⟩ := Lists.exists_lookup (l := es.reverse) (by simpa using hpend)
    obtain ⟨im, hE, hs⟩ := hst (c, e) (List.mem_reverse.mp hin)
    exact ⟨e, im, he, hE, hs⟩
  · exact fun c child f hchild hf => he.compiled c child f hchild hf

theorem converts_node {ps : List Plan} (hsc : s.closed.get? id = some sc)
    (hps : List.Forall₂ (Plan.Converts vars s.closed around) (Plan.pendingOf s.closed sc.children)
      ps) :
    Plan.Converts vars s.closed around id (.node sc ps) := by
  have hid := (hk.nested.closed id sc hsc).1
  refine ⟨hid, fun parent x E σ hcon he hclear => ?_⟩
  obtain rfl := Option.some.inj (hsc.symm.trans hcon.get?)
  have hchildren : ∀ c ∈ Plan.pendingOf s.closed sc.children,
      c ∈ sc.children ∧ around c = id :: around id := by
    intro c hc
    have hmem := (List.mem_filter.mp hc).1
    exact ⟨hmem, (hk.nested.closedChild id sc hsc c hmem).2.2⟩
  have hall := Plan.convertAll_cases sc.frame hps he
    ((hk.nested.closedNodup id sc hsc).filter _) (fun c hc => convertible_child hk hcon hc)
    (fun a ha b hb => (hchildren a ha).2.trans (hchildren b hb).2.symm)
    (fun c hc y hb hraw => hclear y (hb.of_child (hchildren c hc).2) hraw)
  unfold Plan.convert
  cases hconv : Plan.convertAll sc.frame ps σ with
  | mk r σ₁ =>
    rw [hconv] at hall
    cases hall with
    | failed hg hc ho =>
      rw [Outcome.bind_error hconv]
      exact .failed hg (ho.of_child hsc (hchildren _ hc).1)
    | @done es E₁ _ hext he₁ hg hes hst =>
      rw [Outcome.bind_ok hconv]
      obtain ⟨body, hbody, htr⟩ := resolveBody_of_images hk hsc hcon.alive he₁ hes hst
      have hres : ConvertM.ofExcept (Plan.resolveBody sc.carried (es.reverse.lookup ·) sc.body) σ₁ =
          (.ok body, σ₁) := by
        rw [hbody]
        rfl
      rw [Outcome.bind_ok hres]
      by_cases hfit : sc.Fits
      · obtain ⟨e, code, σ₂, hfin, hstand, fin⟩ := Plan.finish_isOk hfit
          (fun k => hk.formed.layout id sc k hsc) hcon.gives he₁.valid
          (fun known => htr.verify he₁.sound known)
        have hnone : E₁ id = none := by
          cases hE : E₁ id with
          | none => rfl
          | some im =>
            obtain ⟨-, c, hc, hb⟩ := hext.fresh id im (hclear id (.refl id) hcon.raw) hE
            exact absurd hb (Below.not_parent (hchildren c hc).2)
        rw [hfin]
        refine .done ?_ (he₁.add hnone hsc hid fin htr hfit fun k => hk.formed.layout id sc k hsc)
          (hg.trans fin.grows) (if_pos rfl) rfl hstand fin.eager
        refine ⟨hext.sub.trans (Images.sub_add hnone _), fun y im hy hy' => ?_⟩
        unfold Images.add at hy'
        split at hy'
        · next e =>
          subst e
          exact ⟨hcon.raw, y, List.mem_singleton_self y, .refl y⟩
        · obtain ⟨hraw, c, hc, hb⟩ := hext.fresh y im hy hy'
          exact ⟨hraw, id, List.mem_singleton_self id, hb.of_child (hchildren c hc).2⟩
      · obtain ⟨count, limit, span, hfin⟩ := Plan.finish_of_not_fits hfit parent body σ₁
        rw [hfin]
        exact .failed hg ⟨id, sc, .self, hsc, hcon.alive, hfit⟩

/-- A closed scope has a plan, and converting it ends as it should. -/
theorem build_converts (hsc : s.closed.get? id = some sc) (u : InputUse) :
    ∃ p u', Plan.build s.closed id u = (.ok p, u') ∧ Plan.Converts vars s.closed around id p :=
  Plan.build_induction hk.nested (fun _ _ _ hsc hps => converts_node hk hsc hps) hsc u

end Session

end ClosureConversion
