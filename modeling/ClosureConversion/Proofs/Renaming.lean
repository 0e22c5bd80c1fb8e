import ClosureConversion.Proofs.Coupling
import ClosureConversion.Proofs.Settled

/-!
Code that runs from two stores.

What code computes does not depend on what ran before it, except for labels: the second store has
handed out more of them, and in it more lambdas may be compiled.  A `Renaming` holds the stores of two
such runs and tells which labels of the one are which of the other.  It starts with the labels that
both had at the beginning, and takes in each label that the first run uses.

A lambda that is compiled in the first run may have been compiled long ago in the second.  It is the
same function there, since lambdas are told apart by their labels.

* `together_eval`: verified code does the same in both runs, up to labels.
* `Process.settled`: what that needs holds of everything that a client has made.
-/

namespace ClosureConversion

variable {lam : Label → Lambda} {base : Label} {σ σ' τ : Store}

/-! ## Renamings -/

/-- The stores of two runs, and the label in the second of each label in the first. -/
structure Renaming (lam : Label → Lambda) (base : Label) where
  left : Store
  right : Store
  leftFine : left.Fine lam base
  rightFine : right.Fine lam base
  map : Label → Label
  fixed : ∀ l < base, map l = l
  inj : ∀ l k, l < left.nextLabel → k < left.nextLabel → map l = map k → l = k
  below : ∀ l < left.nextLabel, map l < right.nextLabel
  function? : ∀ l f, left.function? l = some f → right.function? l = some (f.relabel map)
  /-- What is compiled in the second run alone has no label in the first. -/
  extra : ∀ l g, right.function? l = some g → left.function? l = none →
    ∀ k < left.nextLabel, map k ≠ g.label

namespace Renaming

/-- The runs have gone on. -/
structure Le (W W' : Renaming lam base) : Prop where
  left : W.left.Extends W'.left
  right : W.right.Extends W'.right
  map : ∀ l < W.left.nextLabel, W'.map l = W.map l

/-- The second store is a later one, or the same. -/
def start (hσ : σ.Fine lam base) (hτ : τ.Fine lam base) (h : σ.Extends τ) : Renaming lam base where
  left := σ
  right := τ
  leftFine := hσ
  rightFine := hτ
  map := id
  fixed _ _ := rfl
  inj _ _ _ _ e := e
  below l hl := Nat.lt_of_lt_of_le hl h.next
  function? l f hf := by
    rw [Closure.relabel_id]
    exact h.function? l f hf
  extra l g hg hn k hk e := by
    have e : k = g.label := e
    exact absurd hk (Nat.not_lt_of_le (e ▸ h.fresh l g hg hn))

theorem Le.refl (W : Renaming lam base) : W.Le W := ⟨.refl _, .refl _, fun _ _ => rfl⟩

theorem Le.trans {W₁ W₂ W₃ : Renaming lam base} (h : W₁.Le W₂) (k : W₂.Le W₃) : W₁.Le W₃ where
  left := h.left.trans k.left
  right := h.right.trans k.right
  map l hl := (k.map l (Nat.lt_of_lt_of_le hl h.left.next)).trans (h.map l hl)

/-- Values of the two runs. -/
structure Renamed (W : Renaming lam base) (v w : Value) : Prop where
  settled : v.Settled lam base W.left
  eq : w = v.relabel W.map

variable {W W' : Renaming lam base} {v w : Value}

theorem Renamed.mono (h : W.Renamed v w) (hW : W.Le W') : W'.Renamed v w where
  settled := h.settled.mono hW.left.toKeeps
  eq := h.eq.trans (Datum.relabel_congr v fun l hl => (hW.map l (h.settled.below l hl)).symm)

/-- What was there at the beginning has its label in both runs. -/
theorem Renamed.of_base (hv : v.Settled lam base W.left) (hl : ∀ l ∈ v.labels, l < base) :
    W.Renamed v v :=
  ⟨hv, (Datum.relabel_eq_self fun l hmem => W.fixed l (hl l hmem)).symm⟩

theorem Renamed.scalar (W : Renaming lam base) (d : Datum Empty) (hd : d.isCompound = false) :
    W.Renamed d.lift d.lift := by
  cases d with
  | array _ | function _ | carrier _ _ _ => cases hd
  | _ => exact ⟨⟨nofun, nofun, nofun⟩, rfl⟩

theorem forall₂_renamed {vs ws : List Value} : List.Forall₂ W.Renamed vs ws ↔
    (∀ v ∈ vs, v.Settled lam base W.left) ∧ ws = vs.map (Datum.relabel W.map) := by
  constructor
  · intro h
    induction h with
    | nil => exact ⟨by simp, rfl⟩
    | cons hv _ ih => exact ⟨List.forall_mem_cons.mpr ⟨hv.settled, ih.1⟩, by rw [hv.eq, ih.2, List.map]⟩
  · rintro ⟨h, rfl⟩
    rw [List.forall₂_map_right_iff]
    exact List.forall₂_same.mpr fun v hv => ⟨h v hv, rfl⟩

theorem Renamed.array {vs ws : List Value} (h : List.Forall₂ W.Renamed vs ws) :
    W.Renamed (.array vs) (.array ws) := by
  obtain ⟨hs, rfl⟩ := forall₂_renamed.mp h
  refine ⟨.array hs, ?_⟩
  rw [Datum.relabel, Datum.relabelAll_eq_map]

/-! ## Taking in a label -/

/-- The next label of the first run is called `target` in the second. -/
def mapNext (W : Renaming lam base) (target : Label) : Label → Label :=
  Function.update W.map W.left.nextLabel target

theorem mapNext_self (W : Renaming lam base) (target : Label) :
    W.mapNext target W.left.nextLabel = target :=
  Function.update_self ..

theorem mapNext_of_lt {target l : Label} (h : l < W.left.nextLabel) :
    W.mapNext target l = W.map l :=
  Function.update_of_ne (Nat.ne_of_lt h) ..

theorem relabel_mapNext {target : Label} (h : v.Settled lam base W.left) :
    v.relabel (W.mapNext target) = v.relabel W.map :=
  Datum.relabel_congr v fun l hl => mapNext_of_lt (h.below l hl)

theorem function_mapNext {target l : Label} {f : Closure} (h : W.left.function? l = some f) :
    f.relabel (W.mapNext target) = f.relabel W.map :=
  Closure.relabel_congr f fun k hk => mapNext_of_lt ((W.leftFine.settled_function h).below k hk)

/-- The runs go on to these stores, in which the first run has one label more. -/
def grow (W : Renaming lam base) (σ τ : Store) (target : Label) (hσ : σ.Fine lam base)
    (hτ : τ.Fine lam base) (hn : σ.nextLabel = W.left.nextLabel + 1)
    (hle : W.right.nextLabel ≤ τ.nextLabel) (hlt : target < τ.nextLabel)
    (hfresh : ∀ k < W.left.nextLabel, W.map k ≠ target)
    (hfun : ∀ l f, σ.function? l = some f → τ.function? l = some (f.relabel (W.mapNext target)))
    (hextra : ∀ l g, τ.function? l = some g → σ.function? l = none →
      target ≠ g.label ∧ ∀ k < W.left.nextLabel, W.map k ≠ g.label) : Renaming lam base where
  left := σ
  right := τ
  leftFine := hσ
  rightFine := hτ
  map := W.mapNext target
  fixed l hl := by
    rw [mapNext_of_lt (Nat.lt_of_lt_of_le hl W.leftFine.le)]
    exact W.fixed l hl
  inj l k hl hk e := by
    rw [hn] at hl hk
    rcases Nat.lt_succ_iff_lt_or_eq.mp hl with hl | rfl <;>
      rcases Nat.lt_succ_iff_lt_or_eq.mp hk with hk | rfl
    · rw [mapNext_of_lt hl, mapNext_of_lt hk] at e
      exact W.inj l k hl hk e
    · rw [mapNext_of_lt hl, mapNext_self] at e
      exact absurd e (hfresh l hl)
    · rw [mapNext_of_lt hk, mapNext_self] at e
      exact absurd e.symm (hfresh k hk)
    · rfl
  below l hl := by
    rw [hn] at hl
    rcases Nat.lt_succ_iff_lt_or_eq.mp hl with hl | rfl
    · rw [mapNext_of_lt hl]
      exact Nat.lt_of_lt_of_le (W.below l hl) hle
    · rwa [mapNext_self]
  function? := hfun
  extra l g hg hnone k hk := by
    obtain ⟨htarget, hrest⟩ := hextra l g hg hnone
    rw [hn] at hk
    rcases Nat.lt_succ_iff_lt_or_eq.mp hk with hk | rfl
    · rw [mapNext_of_lt hk]
      exact hrest k hk
    · rwa [mapNext_self]

theorem isCompiled (W : Renaming lam base) (l : Label) (h : W.left.isCompiled l = true) :
    W.right.isCompiled l = true := by
  obtain ⟨f, hf⟩ := Option.isSome_iff_exists.mp h
  exact Option.isSome_iff_exists.mpr ⟨_, W.function? l f hf⟩

/-- Both runs use a new label. -/
theorem exists_newLabel (W : Renaming lam base) :
    ∃ W' : Renaming lam base, W.Le W' ∧
      W'.left = { W.left with nextLabel := W.left.nextLabel + 1 } ∧
      W'.right = { W.right with nextLabel := W.right.nextLabel + 1 } ∧
      W'.map = W.mapNext W.right.nextLabel := by
  have hfresh : ∀ k < W.left.nextLabel, W.map k ≠ W.right.nextLabel := fun k hk =>
    Nat.ne_of_lt (W.below k hk)
  refine ⟨W.grow { W.left with nextLabel := W.left.nextLabel + 1 }
    { W.right with nextLabel := W.right.nextLabel + 1 } W.right.nextLabel
    (W.leftFine.labels (Nat.le_succ _) rfl) (W.rightFine.labels (Nat.le_succ _) rfl) rfl
    (Nat.le_succ _) (Nat.lt_succ_self _) hfresh (fun l f hf => ?_) (fun l g hg hn => ?_),
    ⟨.newLabel _, .newLabel _, fun l hl => mapNext_of_lt hl⟩, rfl, rfl, rfl⟩
  · rw [function_mapNext hf]
    exact W.function? l f hf
  · exact ⟨Nat.ne_of_gt (W.rightFine.below l g hg), W.extra l g hg hn⟩

section

variable {m : Lambda} (hm : lam m.label = m) (hn : W.left.function? m.label = none)
  (hv : m.verify W.left.isCompiled = .ok ()) (hb : m.body.Settled lam base W.left)

include hm hn hv hb

/-- A lambda is compiled in both runs. -/
theorem exists_compile_both (hr : W.right.function? m.label = none) :
    ∃ (W' : Renaming lam base) (target : Label), W.Le W' ∧ W'.left = W.left.record m ∧
      W'.map = W.mapNext target ∧ m.compile W.right = (.ok (m.closure target), W'.right) := by
  have hknown := W.isCompiled
  have hv' : m.verify W.right.isCompiled = .ok () := by
    obtain ⟨hp, hbody⟩ := Term.ite_eq_ok.mp hv
    exact Term.ite_eq_ok.mpr ⟨hp, Term.verify_mono hknown _ _ _ hbody⟩
  have hb' : m.body.Settled lam base W.right :=
    ⟨fun f hf => (hb.sound f hf).mono hknown, hb.rooted, hb.below, hb.lambdas⟩
  have hfresh : ∀ k < W.left.nextLabel, W.map k ≠ W.right.nextLabel := fun k hk =>
    Nat.ne_of_lt (W.below k hk)
  have hcompile : m.compile W.right = (.ok (m.closure W.right.nextLabel), W.right.record m) := by
    rw [Lambda.compile_run, hr, hv']
  refine ⟨W.grow (W.left.record m) (W.right.record m) W.right.nextLabel
    (W.leftFine.record hn hv hb hm) (W.rightFine.record hr hv' hb' hm) rfl (Nat.le_succ _)
    (Nat.lt_succ_self _) hfresh (fun l f hf => ?_) (fun l g hg hl => ?_), W.right.nextLabel,
    ⟨.record hn, .record hr, fun l hl => mapNext_of_lt hl⟩, rfl, rfl, hcompile⟩
  · rw [Store.function?_record]
    rcases Store.cases_of_record hf with ⟨rfl, rfl⟩ | ⟨hne, hf⟩
    · rw [if_pos rfl, Lambda.relabel_closure, mapNext_self]
    · rw [if_neg hne, function_mapNext hf]
      exact W.function? l f hf
  · obtain ⟨hne, hl⟩ := Store.none_of_record hl
    rw [Store.function?_record, if_neg hne] at hg
    exact ⟨Nat.ne_of_gt (W.rightFine.below l g hg), W.extra l g hg hl⟩

/-- A lambda is compiled in the first run, and was before in the second. -/
theorem exists_compile_left {g : Closure} (hr : W.right.function? m.label = some g) :
    ∃ (W' : Renaming lam base) (target : Label), W.Le W' ∧ W'.left = W.left.record m ∧
      W'.map = W.mapNext target ∧ m.compile W.right = (.ok (m.closure target), W'.right) := by
  have hg : g = m.closure g.label := by
    have := W.rightFine.own m.label g hr
    rwa [hm] at this
  have hcompile : m.compile W.right = (.ok (m.closure g.label), W.right) := by
    rw [Lambda.compile_run, hr]
    exact congrArg (fun f => (Except.ok f, W.right)) hg
  refine ⟨W.grow (W.left.record m) W.right g.label (W.leftFine.record hn hv hb hm) W.rightFine rfl
    (Nat.le_refl _) (W.rightFine.below m.label g hr) (W.extra m.label g hr hn) (fun l f hf => ?_)
    (fun l g' hg' hl => ?_), g.label, ⟨.record hn, .refl _, fun l hl => mapNext_of_lt hl⟩, rfl, rfl,
    hcompile⟩
  · rcases Store.cases_of_record hf with ⟨rfl, rfl⟩ | ⟨-, hf⟩
    · rw [hr, Lambda.relabel_closure, mapNext_self]
      exact congrArg some hg
    · rw [function_mapNext hf]
      exact W.function? l f hf
  · obtain ⟨hne, hl⟩ := Store.none_of_record hl
    refine ⟨fun e => hne ?_, W.extra l g' hg' hl⟩
    exact W.rightFine.inj l m.label g' g hg' hr e.symm

theorem exists_compile :
    ∃ (W' : Renaming lam base) (target : Label), W.Le W' ∧ W'.left = W.left.record m ∧
      W'.map = W.mapNext target ∧ m.compile W.right = (.ok (m.closure target), W'.right) := by
  cases hr : W.right.function? m.label with
  | none => exact exists_compile_both hm hn hv hb hr
  | some g => exact exists_compile_left hm hn hv hb hr

end

section

variable (hle : W.Le W') (hmap : W'.map = W.mapNext W.right.nextLabel)
  (hlt : W.left.nextLabel < W'.left.nextLabel)

include hle hmap hlt

theorem renamed_carrier (shape : Shape) {vs : List Value}
    (hs : ∀ v ∈ vs, v.Settled lam base W.left) :
    W'.Renamed (.carrier W.left.nextLabel shape vs)
      (.carrier W.right.nextLabel shape (vs.map (Datum.relabel W.map))) := by
  constructor
  · rw [Datum.settled_carrier]
    exact ⟨hlt, .array fun v hv => (hs v hv).mono hle.left.toKeeps⟩
  · rw [Datum.relabel, Datum.relabelAll_eq_map, hmap, W.mapNext_self]
    refine congrArg (Datum.carrier _ shape) (List.map_congr_left fun v hv => ?_)
    exact (relabel_mapNext (hs v hv)).symm

theorem renamed_bound (arity : Nat) {raw : Closure} (hv : W.Renamed v w)
    (hraw : W.Renamed (.function raw) (.function raw)) :
    W'.Renamed (.function (.bound W.left.nextLabel arity v raw))
      (.function (.bound W.right.nextLabel arity w raw)) := by
  have hv := hv.mono hle
  have hraw := hraw.mono hle
  have hself : raw = raw.relabel W'.map := Datum.function.inj hraw.eq
  refine ⟨hv.settled.bound hraw.settled hlt arity, ?_⟩
  rw [Datum.relabel, Closure.relabel, ← hself, ← hv.eq, hmap, W.mapNext_self]

end

end Renaming

/-- Two runs with different labels. -/
def renamings (lam : Label → Lambda) (base : Label) : Coupling where
  World := Renaming lam base
  le := Renaming.Le
  refl := .refl
  trans := .trans
  ties W σ τ := σ = W.left ∧ τ = W.right
  values := Renaming.Renamed
  mono hW h := h.mono hW
  scalar := .scalar
  akin h := h.eq ▸ Datum.akin_relabel _
  conforms h ty := by rw [h.eq, Datum.conforms_relabel]
  same {W} _ _ _ _ _ _ _ h h' := by
    rw [h.eq, h'.eq, Datum.same_relabel]
    exact fun l hl k hk => W.inj l k (h.settled.below l hl) (h'.settled.below k hk)

/-! ## Evaluation -/

/-- Both runs have these parameters, and the same inputs. -/
structure Partners (W : Renaming lam base) (bound : List LocalId) (root : Bool) (ctx ctx' : Context) :
    Prop where
  bound : ∀ id ∈ bound, ∃ v w, ctx.locals.lookup id = some v ∧ ctx'.locals.lookup id = some w ∧
    W.Renamed v w
  root : root = true → ∃ inputs, ctx.inputs = some inputs ∧ ctx'.inputs = some inputs ∧
    ∀ v ∈ inputs.values, W.Renamed v v

/-- The code may run in both runs. -/
structure Admits (bound : List LocalId) (root : Bool) (ctx ctx' : Context) (e : Expr)
    (W : Renaming lam base) : Prop where
  context : Partners W bound root ctx ctx'
  verified : e.verify W.left.isCompiled bound root = .ok ()
  settled : e.Settled lam base W.left

section

variable {bound : List LocalId} {root : Bool} {ctx ctx' : Context} {e : Expr}
  {W W' : Renaming lam base}

theorem Partners.mono (h : Partners W bound root ctx ctx') (hW : W.Le W') :
    Partners W' bound root ctx ctx' where
  bound id hid := by
    obtain ⟨v, w, hv, hw, hr⟩ := h.bound id hid
    exact ⟨v, w, hv, hw, hr.mono hW⟩
  root hroot := by
    obtain ⟨inputs, hi, hi', hr⟩ := h.root hroot
    exact ⟨inputs, hi, hi', fun v hv => (hr v hv).mono hW⟩

theorem Admits.mono (h : Admits bound root ctx ctx' e W) (hW : W.Le W') :
    Admits bound root ctx ctx' e W' where
  context := h.context.mono hW
  verified := Term.verify_mono hW.left.isCompiled _ _ _ h.verified
  settled := h.settled.mono hW.left.toKeeps

theorem Admits.child {c : Expr} (hc : c ∈ e.children) (h : Admits bound root ctx ctx' e W) :
    Admits bound root ctx ctx' c W where
  context := h.context
  verified := ((Term.verify_eq_ok e).mp h.verified).2 c hc
  settled := h.settled.part (Term.mem_parts_of_mem_children hc)

theorem Admits.admitted (h : Admits bound root ctx ctx' e W) :
    e.Admitted W.left.isCompiled bound root :=
  ((Term.verify_eq_ok e).mp h.verified).1

/-- A function that stands in the code. -/
theorem Admits.embedded (h : Admits bound root ctx ctx' e W) {f : Closure}
    (hf : e.embedded? = some f) : W.Renamed (.function f) (.function f) := by
  have hmem := Term.mem_functions_self hf
  refine .of_base (.function (h.settled.sound f hmem) (h.settled.rooted f hmem) fun l hl => ?_)
    (h.settled.below f hmem)
  exact Nat.lt_of_lt_of_le (h.settled.below f hmem l hl) W.leftFine.le

end

variable {call : Closure → List Value → EvalM Value}

/-- The two runs of a piece of code. -/
def stage (bound : List LocalId) (root : Bool) (ctx ctx' : Context)
    (hcall : CoupledCalls (renamings lam base) call call) : Surroundings (renamings lam base) where
  call := call
  call' := call
  ctx := ctx
  ctx' := ctx'
  admits := Admits bound root ctx ctx'
  mono hW h := h.mono hW
  child := Admits.child
  calls := hcall

section

variable {bound : List LocalId} {root : Bool} {ctx ctx' : Context} {e : Expr}
  {hcall : CoupledCalls (renamings lam base) call call}

theorem together_of_renamed
    (h : ∀ W : Renaming lam base, Admits bound root ctx ctx' e W →
      Coupled (renamings lam base) Renaming.Renamed W (e.eval call ctx W.left)
        (e.eval call ctx' W.right)) : Together (stage bound root ctx ctx' hcall) e := by
  intro W σ τ ha ht
  obtain ⟨rfl, rfl⟩ := ht
  exact h W ha

/-- Both runs go on with values that correspond. -/
theorem coupled_ok {W : Renaming lam base} {v w : Value} (h : W.Renamed v w) :
    Coupled (renamings lam base) Renaming.Renamed W (.ok v, W.left) (.ok w, W.right) :=
  .ok (.refl W) ⟨rfl, rfl⟩ h

/-- Both runs make something under a new label. -/
theorem coupled_new {W : Renaming lam base} {v w : Value}
    (h : ∀ W' : Renaming lam base, W.Le W' → W'.map = W.mapNext W.right.nextLabel →
      W.left.nextLabel < W'.left.nextLabel → W'.Renamed v w) :
    Coupled (renamings lam base) Renaming.Renamed W
      (.ok v, { W.left with nextLabel := W.left.nextLabel + 1 })
      (.ok w, { W.right with nextLabel := W.right.nextLabel + 1 }) := by
  obtain ⟨W', hle, hleft, hright, hmap⟩ := W.exists_newLabel
  refine .ok hle ⟨hleft.symm, hright.symm⟩ (h W' hle hmap ?_)
  rw [hleft]
  exact Nat.lt_succ_self _

theorem together_loc (id : LocalId) : Together (stage bound root ctx ctx' hcall) (.loc id) := by
  refine together_of_renamed fun W ha => ?_
  obtain ⟨v, w, hv, hw, hr⟩ := ha.context.bound id ha.admitted
  unfold Term.eval Context.read
  rw [hv, hw]
  exact coupled_ok hr

theorem together_args : Together (stage bound root ctx ctx' hcall) .args := by
  refine together_of_renamed fun W ha => ?_
  obtain ⟨inputs, hi, hi', hr⟩ := ha.context.root ha.admitted
  unfold Term.eval Context.getInputs
  rw [hi, hi']
  refine coupled_ok (.array (List.forall₂_same.mpr fun v hv => ?_))
  exact hr v (List.mem_append_left _ hv)

theorem together_var (name : String) (ty : Ty) :
    Together (stage bound root ctx ctx' hcall) (.var name ty) := by
  refine together_of_renamed fun W ha => ?_
  obtain ⟨inputs, hi, hi', hr⟩ := ha.context.root ha.admitted
  have hget : ∀ ctx : Context, ctx.inputs = some inputs → ∀ σ, ctx.getInputs σ = (.ok inputs, σ) := by
    intro ctx hi σ
    unfold Context.getInputs
    rw [hi]
    rfl
  unfold Term.eval
  rw [Outcome.bind_ok (hget ctx hi _), Outcome.bind_ok (hget ctx' hi' _)]
  cases hv : inputs.named.lookup name with
  | none => exact .fail _ ⟨rfl, rfl⟩
  | some v =>
    obtain ⟨l, l', hl, -⟩ := List.lookup_eq_some_iff.mp hv
    have hmem : v ∈ inputs.named.map Prod.snd := List.mem_map.mpr ⟨(name, v), by simp [hl], rfl⟩
    exact .ofExcept ⟨rfl, rfl⟩ ((renamings lam base).checked (hr v (List.mem_append_right _ hmem)) ty)

theorem together_arg {vector : Expr} (hc : Together (stage bound root ctx ctx' hcall) vector)
    (index : Nat) (ty : Ty) : Together (stage bound root ctx ctx' hcall) (.arg vector index ty) := by
  intro W σ τ ha ht
  unfold Term.eval
  refine hc.first ha List.mem_cons_self ht fun W₁ v w σ₁ τ₁ _ ht₁ hv => ?_
  obtain ⟨hs, rfl⟩ := hv
  cases v with
  | array items =>
    rw [Datum.relabel, Datum.relabelAll_eq_map]
    simp only [List.getElem?_map, List.length_map]
    cases hi : items[index]? with
    | none => exact .fail _ ht₁
    | some x =>
      have hx : W₁.Renamed x (x.relabel W₁.map) := ⟨hs.items x (List.mem_of_getElem? hi), rfl⟩
      exact .ofExcept ht₁ ((renamings lam base).checked hx ty)
  | _ => exact .fail _ ht₁

theorem together_lambda (label : Label) (params : List Param) (body : Expr) :
    Together (stage bound root ctx ctx' hcall) (.lambda label params body) := by
  refine together_of_renamed fun W ha => ?_
  have hm := ha.settled.lambdas ⟨label, params, body⟩ (Term.mem_lambdas_self rfl)
  have hb : body.Settled lam base W.left := ha.settled.part List.mem_cons_self
  unfold Term.eval
  rw [Outcome.map_eq, Outcome.map_eq, Outcome.adapt_eq, Outcome.adapt_eq]
  cases hf : W.left.function? label with
  | some f =>
    rw [Lambda.compile_run, Lambda.compile_run, hf, W.function? label f hf]
    exact coupled_ok ⟨W.leftFine.settled_function hf, rfl⟩
  | none =>
    -- the lambda is not compiled in the first run, so its body was verified
    have hv : Lambda.verify W.left.isCompiled ⟨label, params, body⟩ = .ok () := by
      rcases ha.admitted with hk | hb
      · simp [Store.isCompiled, hf] at hk
      · exact Term.ite_eq_ok.mpr hb
    obtain ⟨W', target, hle, hleft, hmap, hcompile⟩ := Renaming.exists_compile hm hf hv hb
    have hleft' : Lambda.compile ⟨label, params, body⟩ W.left =
        (.ok (Lambda.closure ⟨label, params, body⟩ W.left.nextLabel), W'.left) := by
      rw [Lambda.compile_run, hf, hv, hleft]
    rw [hleft', hcompile]
    refine .ok hle ⟨rfl, rfl⟩ ⟨?_, ?_⟩
    · rw [hleft]
      exact W.leftFine.settled_closure hf hv hb
    · show Datum.function _ = Datum.function (Closure.relabel _ _)
      rw [Lambda.relabel_closure, hmap, W.mapNext_self]

theorem together_newCarrier {fields : List Expr}
    (hfs : ∀ e ∈ fields, Together (stage bound root ctx ctx' hcall) e) (shape : Shape) :
    Together (stage bound root ctx ctx' hcall) (.newCarrier shape fields) := by
  intro W σ τ ha ht
  unfold Term.eval
  have hmem : ∀ e ∈ fields, e ∈ (Term.newCarrier shape fields).children := fun _ h => h
  refine (Together.evalAll hfs hmem ha ht).bind fun W₁ vs ws σ₁ τ₁ _ ht₁ hvs => ?_
  obtain ⟨rfl, rfl⟩ := ht₁
  obtain ⟨hs, rfl⟩ := Renaming.forall₂_renamed.mp hvs
  rw [Outcome.adapt_eq, Outcome.adapt_eq, Datum.newCarrier_run, Datum.newCarrier_run,
    Datum.fit_relabel]
  cases Datum.fit shape vs with
  | error f => exact .error (.refl W₁) ⟨rfl, rfl⟩
  | ok _ => exact coupled_new fun W' hle hmap hlt => Renaming.renamed_carrier hle hmap hlt shape hs

theorem together_field {carrier : Expr} (hc : Together (stage bound root ctx ctx' hcall) carrier)
    (shape : Shape) (slot : Nat) :
    Together (stage bound root ctx ctx' hcall) (.field carrier shape slot) := by
  intro W σ τ ha ht
  unfold Term.eval
  refine hc.first ha List.mem_cons_self ht fun W₁ v w σ₁ τ₁ _ ht₁ hv => ?_
  obtain ⟨hs, rfl⟩ := hv
  cases v with
  | carrier label shape' fields =>
    have hfields := ((Datum.settled_carrier label shape' fields).mp hs).2
    rw [Datum.relabel, Datum.relabelAll_eq_map]
    simp only [Datum.fieldAt, List.getElem?_map, List.length_map]
    cases hi : fields[slot]? with
    | none => exact .fail _ ht₁
    | some x => exact .ofExcept ht₁ (.ok ⟨hfields.items x (List.mem_of_getElem? hi), rfl⟩)
  | _ => exact .fail _ ht₁

theorem together_bind {carrier : Expr} (hc : Together (stage bound root ctx ctx' hcall) carrier)
    (raw : Closure) (arity : Nat) :
    Together (stage bound root ctx ctx' hcall) (.bind carrier raw arity) := by
  intro W σ τ ha ht
  unfold Term.eval
  refine hc.first ha List.mem_cons_self ht fun W₁ v w σ₁ τ₁ ha₁ ht₁ hv => ?_
  obtain ⟨rfl, rfl⟩ := ht₁
  rw [Outcome.map_eq, Outcome.map_eq, Outcome.adapt_eq, Outcome.adapt_eq, Closure.bind_run,
    Closure.bind_run]
  cases raw.fit arity with
  | error f => exact .error (.refl W₁) ⟨rfl, rfl⟩
  | ok _ =>
    exact coupled_new fun W' hle hmap hlt =>
      Renaming.renamed_bound hle hmap hlt arity hv (Admits.embedded ha₁ rfl)

/-- Code does the same in both runs: by induction on it, one lemma for each form. -/
theorem together_eval (e : Expr) : Together (stage bound root ctx ctx' hcall) e := by
  induction e using Term.childInduction with
  | step e ih =>
    cases e with
    | void => exact .literal ⟨.void, rfl, fun _ _ => rfl⟩
    | bool b => exact .literal ⟨.bool b, rfl, fun _ _ => rfl⟩
    | int k => exact .literal ⟨.int k, rfl, fun _ _ => rfl⟩
    | number x => exact .literal ⟨.number x, rfl, fun _ _ => rfl⟩
    | string s => exact .literal ⟨.string s, rfl, fun _ _ => rfl⟩
    | loc id => exact together_loc id
    | args => exact together_args
    | arg vector index ty => exact together_arg (ih vector List.mem_cons_self) index ty
    | var name ty => exact together_var name ty
    | binary op l r => exact .binary (ih l (by simp [Term.children])) (ih r (by simp [Term.children])) op
    | unary op e => exact .unary (ih e List.mem_cons_self) op
    | compare op l r =>
      exact .compare (ih l (by simp [Term.children])) (ih r (by simp [Term.children])) op
    | logical op l r =>
      exact .logical (ih l (by simp [Term.children])) (ih r (by simp [Term.children])) op
    | cond c y n =>
      exact .cond (ih c (by simp [Term.children])) (ih y (by simp [Term.children]))
        (ih n (by simp [Term.children]))
    | call callee as =>
      exact .call (ih callee List.mem_cons_self) fun a ha => ih a (List.mem_cons_of_mem callee ha)
    | placeholder scope => exact together_of_renamed fun W ha => ha.admitted.elim
    | delegate scope f => exact together_of_renamed fun W ha => coupled_ok (ha.embedded rfl)
    | lambda label params body => exact together_lambda label params body
    | newCarrier shape fields => exact together_newCarrier ih shape
    | field carrier shape slot => exact together_field (ih carrier List.mem_cons_self) shape slot
    | bind carrier raw arity => exact together_bind (ih carrier List.mem_cons_self) raw arity

end

/-! ## Calls -/

/-- The code that a call enters, and the values of its parameters. -/
theorem Closure.Rooted.enter {f : Closure} (hr : f.Rooted lam base) (hs : f.Sound σ.isCompiled)
    (hl : ∀ l ∈ f.labels, l < σ.nextLabel) {vs : List Value}
    (hvs : ∀ v ∈ vs, v.Settled lam base σ) {p : List (LocalId × Value) × Expr}
    (he : f.enter vs = .ok p) :
    ∃ bound, (∀ id ∈ bound, id ∈ p.1.map Prod.fst) ∧ (∀ q ∈ p.1, q.2.Settled lam base σ) ∧
      p.2.verify σ.isCompiled bound false = .ok () ∧ p.2.Settled lam base σ := by
  induction hr generalizing vs with
  | @code label params body hroot hbelow hlam _ =>
    cases hs with
    | code hv hf =>
      unfold Closure.enter at he
      split at he
      · next hlen =>
        cases he
        refine ⟨params, fun id hid => ?_, fun q hq => hvs q.2 (List.of_mem_zip hq).2, hv,
          hf, hroot, hbelow, hlam⟩
        rwa [List.map_fst_zip (Nat.le_of_eq hlen.symm)]
      · cases he
  | @bound label arity first raw hroot _ _ ih =>
    cases hs with
    | bound hf hs =>
      rw [Closure.labels, List.forall_mem_cons, List.forall_mem_append] at hl
      unfold Closure.enter at he
      split at he
      · exact ih hs hl.2.2 (List.forall_mem_cons.mpr ⟨⟨hf, hroot, hl.2.1⟩, hvs⟩) he
      · cases he

/-- Calls do the same in both runs, however deep they nest. -/
theorem coupledCalls_renamed (depth : Nat) :
    CoupledCalls (renamings lam base) (Closure.invoke depth) (Closure.invoke depth) := by
  induction depth with
  | zero => exact fun W f g vs ws σ τ _ _ ht => .error (.refl W) ht
  | succ depth ih =>
    intro W f g vs ws σ τ h hvs ht
    obtain ⟨rfl, rfl⟩ := ht
    obtain ⟨hf, heq⟩ : W.Renamed (.function f) (.function g) := h
    obtain rfl := Datum.function.inj heq
    obtain ⟨hs, rfl⟩ := Renaming.forall₂_renamed.mp hvs
    unfold Closure.invoke
    rw [Closure.enter_relabel]
    cases he : f.enter vs with
    | error e => exact .fail e ⟨rfl, rfl⟩
    | ok p =>
      obtain ⟨bound, hbound, hlocals, hv, hbody⟩ := (hf.rooted f List.mem_cons_self).enter
        (hf.sound f List.mem_cons_self) hf.below hs he
      have htogether : Together (stage bound false ⟨p.1, none⟩
          ⟨p.1.map fun q => (q.1, q.2.relabel W.map), none⟩ ih) p.2 := together_eval p.2
      refine htogether W W.left W.right ⟨⟨fun id hid => ?_, fun h => by cases h⟩, hv, hbody⟩ ⟨rfl, rfl⟩
      obtain ⟨v, hv, hmem⟩ := Lists.exists_lookup (hbound id hid)
      refine ⟨v, v.relabel W.map, hv, ?_, hlocals _ hmem, rfl⟩
      rw [Lists.lookup_map_snd, hv]
      rfl

/-! ## Clients -/

/-- Whole expressions do the same from a store and from a later one. -/
theorem coupled_whole {W : Renaming lam base} {e : Expr} {inputs : Inputs}
    (hv : e.verify W.left.isCompiled [] true = .ok ()) (he : e.Settled lam base W.left)
    (hi : ∀ v ∈ inputs.values, W.Renamed v v) (depth : Nat) :
    Coupled (renamings lam base) Renaming.Renamed W
      (e.eval (Closure.invoke depth) ⟨[], some inputs⟩ W.left)
      (e.eval (Closure.invoke depth) ⟨[], some inputs⟩ W.right) := by
  have hcall : CoupledCalls (renamings lam base) (Closure.invoke depth) (Closure.invoke depth) :=
    coupledCalls_renamed depth
  have htogether : Together (stage [] true ⟨[], some inputs⟩ ⟨[], some inputs⟩ hcall) e :=
    together_eval e
  exact htogether W W.left W.right ⟨⟨by simp, fun _ => ⟨inputs, rfl, rfl, hi⟩⟩, hv, he⟩ ⟨rfl, rfl⟩

/-- A run leaves a store in which everything that it made exists. -/
theorem settled_of_coupled {W : Renaming lam base} {r : Except Halt Value} {σ : Store}
    {y : Except Halt Value × Store}
    (h : Coupled (renamings lam base) Renaming.Renamed W (r, σ) y) :
    W.left.Extends σ ∧ σ.Fine lam base ∧ ∀ v, r = .ok v → v.Settled lam base σ := by
  cases h with
  | @ok W' _ _ _ _ hle ht hr =>
    obtain ⟨rfl, -⟩ := ht
    exact ⟨Renaming.Le.left hle, W'.leftFine, fun v e => by cases e; exact hr.settled⟩
  | @error W' _ _ _ hle ht =>
    obtain ⟨rfl, -⟩ := ht
    exact ⟨Renaming.Le.left hle, W'.leftFine, nofun⟩

/-- What holds of everything that a client has made with lambdas that have their labels to
themselves. -/
theorem Process.settled {fs : List Closure} (h : Process (fun m => lam m.label = m) σ fs) :
    σ.Fine lam σ.nextLabel ∧ ∀ f ∈ fs, (Datum.function f).Settled lam σ.nextLabel σ := by
  induction h with
  | @start σ h =>
    have hnone : ∀ l, σ.function? l = none := fun l => by rw [Store.function?, h]; rfl
    refine ⟨⟨?_, Nat.le_refl _, ?_, ?_, ?_, ?_⟩, by simp⟩ <;> simp [Store.Sound, hnone]
  | labels _ hn hfun ih =>
    exact (ih.1.labels hn hfun).advance (.of_functions hn hfun) ih.2 (List.forall_mem_nil _)
  | compile _ hover hc ih =>
    obtain ⟨hk, hfine, hf⟩ := ih.1.compile (hover.settled ih.2) hc
    exact hfine.advance hk ih.2 (List.forall_mem_singleton.mpr hf)
  | bind _ hraw hfirst hb ih =>
    obtain ⟨hk, hfine, hf⟩ := ih.1.bind (hfirst.settled ih.2) (ih.2 _ hraw) hb
    exact hfine.advance hk ih.2 (List.forall_mem_singleton.mpr hf)
  | @invoke σ σ' fs f vs depth r _ hf hvs hr ih =>
    let W : Renaming lam σ.nextLabel := .start ih.1 ih.1 (.refl σ)
    have hself : ∀ v : Value, v.Settled lam σ.nextLabel σ → W.Renamed v v := fun v hv =>
      .of_base hv hv.below
    have hrun := coupledCalls_renamed depth W f f vs vs σ σ (hself _ (ih.2 f hf))
      (List.forall₂_same.mpr fun v hv => hself v ((hvs v hv).settled ih.2)) ⟨rfl, rfl⟩
    rw [hr] at hrun
    obtain ⟨hx, hfine, hv⟩ := settled_of_coupled hrun
    exact hfine.advance hx.toKeeps ih.2 (settled_answered hv)
  | @evaluate σ σ' fs e inputs depth r _ he hi hr ih =>
    let W : Renaming lam σ.nextLabel := .start ih.1 ih.1 (.refl σ)
    have hself : ∀ v ∈ inputs.values, W.Renamed v v := fun v hv =>
      .of_base ((hi v hv).settled ih.2) ((hi v hv).settled ih.2).below
    rw [Term.evaluate_run] at hr
    cases hv : e.verify σ.isCompiled [] true with
    | error err =>
      rw [hv] at hr
      cases hr
      exact ih
    | ok _ =>
      have hrun : Coupled (renamings lam σ.nextLabel) Renaming.Renamed W _ _ :=
        coupled_whole hv (he.settled ih.2) hself depth
      rw [hv] at hr
      rw [show e.eval (Closure.invoke depth) ⟨[], some inputs⟩ W.left = (r, σ') from hr] at hrun
      obtain ⟨hx, hfine, hv⟩ := settled_of_coupled hrun
      exact hfine.advance hx.toKeeps ih.2 (settled_answered hv)

end ClosureConversion
