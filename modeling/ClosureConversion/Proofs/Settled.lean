import ClosureConversion.Proofs.Relabelling
import ClosureConversion.Proofs.Verified

/-!
Values and stores at some time of a run.

Nothing that exists has a label that is still to be handed out, and the functions in code are older
than the labels from `base` on, which are those of the run itself.  `Datum.Settled` and `Term.Settled`
say this of values and of code, `Store.Fine` of the functions of compiled lambdas.

Lambdas are told apart by their labels: `lam l` is the one with the label `l`.
-/

namespace ClosureConversion

/-! ## Values -/

/-- The code of the function holds functions with labels below `base` only, and lambdas that have
their labels to themselves. -/
inductive Closure.Rooted (lam : Label → Lambda) (base : Label) : Closure → Prop
  | code {label : Label} {params : List LocalId} {body : Expr} :
      (∀ f ∈ body.functions, Rooted lam base f) →
      (∀ f ∈ body.functions, ∀ l ∈ f.labels, l < base) →
      (∀ m ∈ body.lambdas, lam m.label = m) → Rooted lam base (.code label params body)
  | bound {label : Label} {arity : Nat} {first : Value} {raw : Closure} :
      (∀ f ∈ first.functions, Rooted lam base f) → Rooted lam base raw →
      Rooted lam base (.bound label arity first raw)

/-- The value exists in the store, and calls of its functions can be followed. -/
structure Datum.Settled (lam : Label → Lambda) (base : Label) (σ : Store) (v : Value) : Prop where
  sound : v.Sound σ.isCompiled
  rooted : ∀ f ∈ v.functions, f.Rooted lam base
  below : ∀ l ∈ v.labels, l < σ.nextLabel

/-- The code holds functions that were there at the beginning. -/
structure Term.Settled (lam : Label → Lambda) (base : Label) (σ : Store) (e : Expr) : Prop where
  sound : ∀ f ∈ e.functions, f.Sound σ.isCompiled
  rooted : ∀ f ∈ e.functions, f.Rooted lam base
  below : ∀ f ∈ e.functions, ∀ l ∈ f.labels, l < base
  lambdas : ∀ m ∈ e.lambdas, lam m.label = m

variable {lam : Label → Lambda} {base : Label} {σ σ' : Store}

theorem Closure.Rooted.mono {f : Closure} (h : f.Rooted lam base) {base' : Label}
    (hle : base ≤ base') : f.Rooted lam base' := by
  induction h with
  | code _ hl hm ih => exact .code ih (fun f hf l hmem => Nat.lt_of_lt_of_le (hl f hf l hmem) hle) hm
  | bound _ _ ih ihr => exact .bound ih ihr

theorem Datum.Settled.mono {v : Value} (h : v.Settled lam base σ) (hk : σ.Keeps σ') :
    v.Settled lam base σ' where
  sound f hf := (h.sound f hf).mono hk.isCompiled
  rooted := h.rooted
  below l hl := Nat.lt_of_lt_of_le (h.below l hl) hk.next

/-- What exists goes on to exist, also where more labels count as old. -/
theorem Datum.Settled.later {v : Value} (h : v.Settled lam base σ) (hk : σ.Keeps σ')
    (hle : base ≤ σ'.nextLabel) : v.Settled lam σ'.nextLabel σ' where
  sound := (h.mono hk).sound
  rooted f hf := (h.rooted f hf).mono hle
  below := (h.mono hk).below

theorem Datum.Settled.function {f : Closure} (hs : f.Sound σ.isCompiled) (hr : f.Rooted lam base)
    (hl : ∀ l ∈ f.labels, l < σ.nextLabel) : (Datum.function f).Settled lam base σ := by
  refine ⟨fun g hg => ?_, fun g hg => ?_, hl⟩
  · obtain rfl := List.mem_singleton.mp hg
    exact hs
  · obtain rfl := List.mem_singleton.mp hg
    exact hr

theorem Datum.Settled.bound {v : Value} {raw : Closure} (hv : v.Settled lam base σ)
    (hraw : (Datum.function raw).Settled lam base σ) {label : Label} (hl : label < σ.nextLabel)
    (arity : Nat) : (Datum.function (.bound label arity v raw)).Settled lam base σ := by
  refine .function (.bound hv.sound (hraw.sound raw List.mem_cons_self))
    (.bound hv.rooted (hraw.rooted raw List.mem_cons_self)) ?_
  rw [Closure.labels, List.forall_mem_cons, List.forall_mem_append]
  exact ⟨hl, hv.below, hraw.below⟩

theorem Datum.Settled.items {vs : List Value} (h : (Datum.array vs).Settled lam base σ) :
    ∀ v ∈ vs, v.Settled lam base σ := by
  intro v hv
  refine ⟨fun f hf => h.sound f ?_, fun f hf => h.rooted f ?_, fun l hl => h.below l ?_⟩
  · exact functions_array vs ▸ List.mem_flatMap.mpr ⟨v, hv, hf⟩
  · exact functions_array vs ▸ List.mem_flatMap.mpr ⟨v, hv, hf⟩
  · exact labels_array vs ▸ List.mem_flatMap.mpr ⟨v, hv, hl⟩

theorem Datum.Settled.array {vs : List Value} (h : ∀ v ∈ vs, v.Settled lam base σ) :
    (Datum.array vs).Settled lam base σ := by
  refine ⟨fun f hf => ?_, fun f hf => ?_, fun l hl => ?_⟩
  · rw [functions_array] at hf
    obtain ⟨v, hv, hf⟩ := List.mem_flatMap.mp hf
    exact (h v hv).sound f hf
  · rw [functions_array] at hf
    obtain ⟨v, hv, hf⟩ := List.mem_flatMap.mp hf
    exact (h v hv).rooted f hf
  · rw [labels_array] at hl
    obtain ⟨v, hv, hl⟩ := List.mem_flatMap.mp hl
    exact (h v hv).below l hl

/-- A carrier exists iff its label and its fields do. -/
theorem Datum.settled_carrier (label : Label) (shape : Shape) (vs : List Value) :
    (Datum.carrier label shape vs).Settled lam base σ ↔
      label < σ.nextLabel ∧ (Datum.array vs).Settled lam base σ := by
  have hfun : (Datum.carrier label shape vs).functions = (Datum.array vs).functions := by
    rw [functions_carrier, functions_array]
  have hsound : (Datum.carrier label shape vs).Sound σ.isCompiled ↔
      (Datum.array vs).Sound σ.isCompiled := by
    rw [Datum.Sound, hfun]
    rfl
  constructor
  · intro h
    exact ⟨h.below label List.mem_cons_self, hsound.mp h.sound, hfun ▸ h.rooted, fun l hl =>
      h.below l (List.mem_cons_of_mem label hl)⟩
  · rintro ⟨hl, h⟩
    exact ⟨hsound.mpr h.sound, hfun ▸ h.rooted, List.forall_mem_cons.mpr ⟨hl, h.below⟩⟩

namespace Term.Settled

variable {e : Expr}

theorem mono (h : e.Settled lam base σ) (hk : σ.Keeps σ') : e.Settled lam base σ' where
  sound f hf := (h.sound f hf).mono hk.isCompiled
  rooted := h.rooted
  below := h.below
  lambdas := h.lambdas

theorem part (h : e.Settled lam base σ) {c : Expr} (hc : c ∈ e.parts) : c.Settled lam base σ where
  sound f hf := h.sound f (mem_functions_of_part hc hf)
  rooted f hf := h.rooted f (mem_functions_of_part hc hf)
  below f hf := h.below f (mem_functions_of_part hc hf)
  lambdas m hm := h.lambdas m (mem_lambdas_of_part hc hm)

end Term.Settled

/-! ## Stores -/

namespace Store

/-- The functions of compiled lambdas are what their labels say, each with a label of its own. -/
structure Fine (lam : Label → Lambda) (base : Label) (σ : Store) : Prop where
  sound : σ.Sound
  le : base ≤ σ.nextLabel
  own : ∀ l f, σ.function? l = some f → f = (lam l).closure f.label
  below : ∀ l f, σ.function? l = some f → f.label < σ.nextLabel
  inj : ∀ l l' f f', σ.function? l = some f → σ.function? l' = some f' → f.label = f'.label → l = l'
  rooted : ∀ l f, σ.function? l = some f → f.Rooted lam base

/-- The later store has all functions of the earlier one, and others that are new. -/
structure Extends (σ σ' : Store) : Prop extends σ.Keeps σ' where
  fresh : ∀ l f, σ'.function? l = some f → σ.function? l = none → σ.nextLabel ≤ f.label

namespace Extends

theorem refl (σ : Store) : σ.Extends σ := by
  refine ⟨.refl σ, fun l f h hn => ?_⟩
  rw [hn] at h
  cases h

theorem trans {σ₁ σ₂ σ₃ : Store} (h : σ₁.Extends σ₂) (k : σ₂.Extends σ₃) : σ₁.Extends σ₃ := by
  refine ⟨h.toKeeps.trans k.toKeeps, fun l f hf hn => ?_⟩
  cases hl : σ₂.function? l with
  | none => exact Nat.le_trans h.next (k.fresh l f hf hl)
  | some g =>
    obtain rfl := Option.some.inj ((k.function? l g hl).symm.trans hf)
    exact h.fresh l g hl hn

theorem newLabel (σ : Store) : σ.Extends { σ with nextLabel := σ.nextLabel + 1 } :=
  ⟨.newLabel σ, (refl σ).fresh⟩

theorem record {m : Lambda} (h : σ.function? m.label = none) : σ.Extends (σ.record m) := by
  refine ⟨.record h, fun l f hf hn => ?_⟩
  rcases cases_of_record hf with ⟨-, rfl⟩ | ⟨-, hf⟩
  · exact Nat.le_refl _
  · rw [hn] at hf
    cases hf

end Extends

namespace Fine

theorem labels (h : σ.Fine lam base) (hn : σ.nextLabel ≤ σ'.nextLabel)
    (hf : σ'.functions = σ.functions) : σ'.Fine lam base := by
  have hfun : ∀ l, σ'.function? l = σ.function? l := fun l => by rw [function?, hf, function?]
  constructor
  case sound => exact h.sound.of_functions hf
  case le => exact Nat.le_trans h.le hn
  case own => exact fun l f e => h.own l f (hfun l ▸ e)
  case below => exact fun l f e => Nat.lt_of_lt_of_le (h.below l f (hfun l ▸ e)) hn
  case inj => exact fun l l' f f' e e' => h.inj l l' f f' (hfun l ▸ e) (hfun l' ▸ e')
  case rooted => exact fun l f e => h.rooted l f (hfun l ▸ e)

/-- A verified lambda is compiled. -/
theorem record (h : σ.Fine lam base) {m : Lambda} (hn : σ.function? m.label = none)
    (hv : m.verify σ.isCompiled = .ok ()) (hb : m.body.Settled lam base σ) (hm : lam m.label = m) :
    (σ.record m).Fine lam base := by
  constructor
  case sound => exact (h.sound.record hn hv hb.sound).1
  case le => exact Nat.le_succ_of_le h.le
  case own =>
    intro l f hf
    rcases cases_of_record hf with ⟨rfl, rfl⟩ | ⟨-, hf⟩
    · rw [hm]
      rfl
    · exact h.own l f hf
  case below =>
    intro l f hf
    rcases cases_of_record hf with ⟨-, rfl⟩ | ⟨-, hf⟩
    · exact Nat.lt_succ_self _
    · exact Nat.lt_succ_of_lt (h.below l f hf)
  case inj =>
    intro l l' f f' hf hf' he
    rcases cases_of_record hf with ⟨rfl, rfl⟩ | ⟨-, hf⟩ <;>
      rcases cases_of_record hf' with ⟨rfl, rfl⟩ | ⟨-, hf'⟩
    · rfl
    · exact absurd (h.below l' f' hf') (he ▸ Nat.lt_irrefl _)
    · exact absurd (h.below l f hf) (he ▸ Nat.lt_irrefl _)
    · exact h.inj l l' f f' hf hf' he
  case rooted =>
    intro l f hf
    rcases cases_of_record hf with ⟨-, rfl⟩ | ⟨-, hf⟩
    · exact .code hb.rooted hb.below hb.lambdas
    · exact h.rooted l f hf

theorem settled_function (h : σ.Fine lam base) {l : Label} {f : Closure}
    (hf : σ.function? l = some f) : (Datum.function f).Settled lam base σ := by
  refine .function (h.sound l f hf) (h.rooted l f hf) fun k hk => ?_
  rw [h.own l f hf] at hk
  obtain rfl := List.mem_singleton.mp hk
  exact h.below l f hf

theorem settled_closure (h : σ.Fine lam base) {m : Lambda} (hn : σ.function? m.label = none)
    (hv : m.verify σ.isCompiled = .ok ()) (hb : m.body.Settled lam base σ) :
    (Datum.function (m.closure σ.nextLabel)).Settled lam base (σ.record m) := by
  refine .function (h.sound.record hn hv hb.sound).2 (.code hb.rooted hb.below hb.lambdas) ?_
  intro l hl
  obtain rfl := List.mem_singleton.mp hl
  exact Nat.lt_succ_self _

/-- Compiling gives a function of the store, or adds one. -/
theorem compile (h : σ.Fine lam base) {m : Lambda} {f : Closure}
    (he : m.toExpr.Settled lam base σ) (hc : m.compile σ = (.ok f, σ')) :
    σ.Keeps σ' ∧ σ'.Fine lam base ∧ (Datum.function f).Settled lam base σ' := by
  have hb : m.body.Settled lam base σ := he.part List.mem_cons_self
  rcases m.compile_cases σ with ⟨g, hf, hr⟩ | ⟨hn, ⟨err, -, hr⟩ | ⟨hv, hr⟩⟩
  · cases hc.symm.trans hr
    exact ⟨.refl σ, h, h.settled_function hf⟩
  · cases hc.symm.trans hr
  · cases hc.symm.trans hr
    have hm := he.lambdas m (Term.mem_lambdas_self rfl)
    exact ⟨.record hn, h.record hn hv hb hm, h.settled_closure hn hv hb⟩

/-- Binding adds a function with a new label. -/
theorem bind (h : σ.Fine lam base) {arity : Nat} {first : Value} {raw f : Closure}
    (hfirst : first.Settled lam base σ) (hraw : (Datum.function raw).Settled lam base σ)
    (hb : Closure.bind arity first raw σ = (.ok f, σ')) :
    σ.Keeps σ' ∧ σ'.Fine lam base ∧ (Datum.function f).Settled lam base σ' := by
  rw [Closure.bind_run] at hb
  cases hfit : raw.fit arity with
  | error e =>
    rw [hfit] at hb
    cases hb
  | ok _ =>
    rw [hfit] at hb
    cases hb
    have hk := Keeps.newLabel σ
    exact ⟨hk, h.labels hk.next rfl,
      (hfirst.mono hk).bound (hraw.mono hk) (Nat.lt_succ_self σ.nextLabel) arity⟩

/-- All labels so far may count as old. -/
theorem rebase (h : σ.Fine lam base) : σ.Fine lam σ.nextLabel where
  sound := h.sound
  le := Nat.le_refl _
  own := h.own
  below := h.below
  inj := h.inj
  rooted l f hf := (h.rooted l f hf).mono h.le

end Fine

end Store

/-! ## What clients pass in -/

section

variable {fs : List Closure}

theorem Term.Over.settled (hfs : ∀ f ∈ fs, (Datum.function f).Settled lam σ.nextLabel σ) {e : Expr}
    (h : e.Over (fun m => lam m.label = m) fs) : e.Settled lam σ.nextLabel σ where
  sound f hf := (hfs f (h.functions f hf)).sound f List.mem_cons_self
  rooted f hf := (hfs f (h.functions f hf)).rooted f List.mem_cons_self
  below f hf := (hfs f (h.functions f hf)).below
  lambdas := h.lambdas

theorem Datum.Over.settled (hfs : ∀ f ∈ fs, (Datum.function f).Settled lam σ.nextLabel σ) {v : Value}
    (h : v.Over σ fs) : v.Settled lam σ.nextLabel σ where
  sound f hf := (hfs f (h.functions f hf)).sound f List.mem_cons_self
  rooted f hf := (hfs f (h.functions f hf)).rooted f List.mem_cons_self
  below l hl := by
    rcases (mem_labels l v).mp hl with ⟨f, hf, hl⟩ | hl
    · exact (hfs f (h.functions f hf)).below l hl
    · exact h.carriers l hl

/-- What a client had goes on to exist, beside what it has made. -/
theorem Store.Fine.advance {new : List Closure} (hfine : σ'.Fine lam σ.nextLabel) (hk : σ.Keeps σ')
    (hfs : ∀ f ∈ fs, (Datum.function f).Settled lam σ.nextLabel σ)
    (hnew : ∀ f ∈ new, (Datum.function f).Settled lam σ.nextLabel σ') :
    σ'.Fine lam σ'.nextLabel ∧
      ∀ f ∈ new ++ fs, (Datum.function f).Settled lam σ'.nextLabel σ' := by
  refine ⟨hfine.rebase, fun f hf => ?_⟩
  rcases List.mem_append.mp hf with hf | hf
  · exact (hnew f hf).later (.refl σ') hfine.le
  · exact (hfs f hf).later hk hk.next

/-- The functions in an answer exist if the answer does. -/
theorem settled_answered {r : Except Halt Value} (h : ∀ v, r = .ok v → v.Settled lam base σ) :
    ∀ f ∈ answered r, (Datum.function f).Settled lam base σ := by
  intro f hf
  cases r with
  | error _ => cases hf
  | ok v =>
    have hf : f ∈ v.functions := hf
    have hv := h v rfl
    exact .function (hv.sound f hf) (hv.rooted f hf) fun l hl =>
      hv.below l ((Datum.mem_labels l v).mpr (.inl ⟨f, hf, hl⟩))

end

end ClosureConversion
