import ClosureConversion.Proofs.Protocol

/-!
The numbers of carrier shapes.

A process numbers the shapes of its carriers in the order in which they are asked for.  All stores give
an environment the same layout, up to these numbers: `carry_unnumbered`.  Two stores give it the same
layout, numbers included, if they end with tables that are `Consistent`: no fields have one number in
the one and another in the other (`carry_eq`).  This holds of stores that begin with one table and are
asked for the same shapes (`shapes_carry`), and of stores of one process, since its table only grows
(`rows_carry`, `Consistent.of_prefix`).

Only closing a scope that captures something asks for shapes; converting scopes does not:
`Plan.shapes_convert`.
-/

namespace ClosureConversion

/-! ## Numbers of shapes -/

theorem Lists.idxOf?_of_prefix {α : Type} [BEq α] {l l' : List α} (h : l <+: l') {a : α} {i : Nat}
    (hi : l.idxOf? a = some i) : l'.idxOf? a = some i := by
  obtain ⟨rest, rfl⟩ := h
  unfold List.idxOf? at hi ⊢
  rw [List.findIdx?_append, hi]
  rfl

namespace ShapeTable

/-- No fields have one number here and another there. -/
def Consistent (t t' : ShapeTable) : Prop :=
  ∀ fields i j, t.rows.idxOf? fields = some i → t'.rows.idxOf? fields = some j → i = j

variable {t t' u u' : ShapeTable}

theorem Consistent.refl (t : ShapeTable) : t.Consistent t := fun _ _ _ hi hj =>
  Option.some.inj (hi.symm.trans hj)

theorem Consistent.of_prefix (h : u.Consistent u') (ht : t.rows <+: u.rows)
    (ht' : t'.rows <+: u'.rows) : t.Consistent t' := fun fields i j hi hj =>
  h fields i j (Lists.idxOf?_of_prefix ht hi) (Lists.idxOf?_of_prefix ht' hj)

theorem exists_number (fields : List Ty) (t : ShapeTable) :
    ∃ i, (intern fields t).1 = ⟨i + 1, fields⟩ ∧
      (intern fields t).2.rows.idxOf? fields = some i := by
  unfold intern
  cases h : t.rows.idxOf? fields with
  | some i => exact ⟨i, rfl, h⟩
  | none =>
    refine ⟨t.rows.length, rfl, ?_⟩
    unfold List.idxOf? at h ⊢
    simp [List.findIdx?_append, h]

theorem intern_eq {fields : List Ty} (h : (intern fields t).2.Consistent (intern fields t').2) :
    (intern fields t).1 = (intern fields t').1 := by
  obtain ⟨i, hi, hr⟩ := exists_number fields t
  obtain ⟨j, hj, hr'⟩ := exists_number fields t'
  rw [hi, hj, h fields i j hr hr']

end ShapeTable

/-- Which values the segment has, but not the shape of their carrier. -/
def Segment.unnumbered (s : Segment) : Segment := { s with shape := ⟨0, []⟩ }

/-- How the environment is received, but for the shapes of its carriers. -/
def Carried.unnumbered (c : Carried) : Carried where
  env := c.env
  layout := ⟨c.layout.head.unnumbered, c.layout.rest.map Segment.unnumbered⟩
  param := { c.param with ty := .any }

namespace Layout

theorem rows_link (start : Nat) (lens : List Nat) (types : List Ty) (σ : Store) :
    σ.shapes.rows <+: (link start lens types σ).2.shapes.rows := by
  induction lens generalizing start types with
  | nil => exact List.prefix_rfl
  | cons len lens ih =>
    have hrest := ih (start + len) (types.drop len)
    cases h : link (start + len) lens (types.drop len) σ with
    | mk rest σ' =>
      rw [h] at hrest
      rw [link_cons h]
      exact hrest.trans (ShapeTable.rows_intern _ _)

/-- Stores whose shapes have consistent numbers in the end make the same segments. -/
theorem link_eq {start : Nat} {lens : List Nat} {types : List Ty} {σ τ : Store}
    (h : (link start lens types σ).2.shapes.Consistent (link start lens types τ).2.shapes) :
    (link start lens types σ).1 = (link start lens types τ).1 := by
  induction lens generalizing start types with
  | nil => rfl
  | cons len lens ih =>
    have hrest := @ih (start + len) (types.drop len)
    cases hσ : link (start + len) lens (types.drop len) σ with
    | mk rest σ' =>
      cases hτ : link (start + len) lens (types.drop len) τ with
      | mk rest' τ' =>
        rw [hσ, hτ] at hrest
        rw [link_cons hσ, link_cons hτ] at h ⊢
        have hsame : rest = rest' :=
          hrest (h.of_prefix (ShapeTable.rows_intern _ _) (ShapeTable.rows_intern _ _))
        subst hsame
        have hshape := ShapeTable.intern_eq h
        exact congrArg (fun shape => (⟨start, len, shape⟩ :: rest : List Segment)) hshape

/-- All stores make segments of the same values. -/
theorem link_unnumbered (start : Nat) (lens : List Nat) (types : List Ty) (σ τ : Store) :
    (link start lens types σ).1.map Segment.unnumbered =
      (link start lens types τ).1.map Segment.unnumbered := by
  induction lens generalizing start types with
  | nil => rfl
  | cons len lens ih =>
    have hrest := ih (start + len) (types.drop len)
    cases hσ : link (start + len) lens (types.drop len) σ with
    | mk rest σ' =>
      cases hτ : link (start + len) lens (types.drop len) τ with
      | mk rest' τ' =>
        rw [hσ, hτ] at hrest
        rw [link_cons hσ, link_cons hτ]
        exact congrArg (List.cons _) hrest

theorem shapes_link {σ τ : Store} (h : σ.shapes = τ.shapes) (start : Nat) (lens : List Nat)
    (types : List Ty) :
    (link start lens types σ).2.shapes = (link start lens types τ).2.shapes := by
  induction lens generalizing start types with
  | nil => exact h
  | cons len lens ih =>
    have hrest := ih (start + len) (types.drop len)
    have hsame : (link (start + len) lens (types.drop len) σ).1 =
        (link (start + len) lens (types.drop len) τ).1 := link_eq (by rw [hrest]; exact .refl _)
    cases hσ : link (start + len) lens (types.drop len) σ with
    | mk rest σ' =>
      cases hτ : link (start + len) lens (types.drop len) τ with
      | mk rest' τ' =>
        rw [hσ, hτ] at hrest hsame
        obtain rfl : rest = rest' := hsame
        rw [link_cons hσ, link_cons hτ]
        exact congrArg (fun t => (ShapeTable.intern _ t).2) hrest

end Layout

/-! ## Conversion makes no shapes -/

namespace ConvertM

variable {α β : Type}

theorem shapes_bind {x : ConvertM α} {f : α → ConvertM β} {σ : Store}
    (hx : (x σ).2.shapes = σ.shapes) (hf : ∀ a τ, (f a τ).2.shapes = τ.shapes) :
    ((x >>= f) σ).2.shapes = σ.shapes :=
  Outcome.bind_rel (R := fun σ σ' : Store => σ'.shapes = σ.shapes) (fun _ _ _ h k => k.trans h) hx hf

theorem shapes_ofExcept (r : Except Breach α) (σ : Store) : (ofExcept r σ).2.shapes = σ.shapes := by
  cases r <;> rfl

theorem shapes_compile (l : Lambda) (σ : Store) : (compile l σ).2.shapes = σ.shapes := by
  unfold compile
  rw [Outcome.adapt_eq, Lambda.compile_run]
  cases σ.function? l.label with
  | some f => rfl
  | none => cases l.verify σ.isCompiled <;> rfl

end ConvertM

namespace Plan

theorem shapes_limitParams (sc : Scope) (limit : Nat) (σ : Store) :
    (limitParams sc limit σ).2.shapes = σ.shapes := by
  unfold limitParams
  split <;> rfl

theorem shapes_finish (parent : Frame) (sc : Scope) (body : Expr) (σ : Store) :
    (finish parent sc body σ).2.shapes = σ.shapes := by
  have hnew : ∀ params σ, ((liftM (Lambda.new params body) : ConvertM Lambda) σ).2.shapes =
      σ.shapes := fun _ _ => rfl
  unfold finish
  cases sc.carried with
  | none =>
    refine ConvertM.shapes_bind (shapes_limitParams ..) fun _ σ => ?_
    refine ConvertM.shapes_bind (hnew ..) fun l σ => ?_
    cases sc.eager with
    | true => exact ConvertM.shapes_bind (ConvertM.shapes_compile l σ) fun _ _ => rfl
    | false => rfl
  | some c =>
    refine ConvertM.shapes_bind (shapes_limitParams ..) fun _ σ => ?_
    refine ConvertM.shapes_bind (ConvertM.shapes_ofExcept ..) fun _ σ => ?_
    refine ConvertM.shapes_bind (ConvertM.shapes_ofExcept ..) fun _ σ => ?_
    refine ConvertM.shapes_bind (hnew ..) fun l σ => ?_
    exact ConvertM.shapes_bind (ConvertM.shapes_compile l σ) fun _ _ => rfl

mutual

theorem shapes_convert (parent : Frame) :
    ∀ (p : Plan) (σ : Store), (p.convert parent σ).2.shapes = σ.shapes
  | .node sc ps, σ => by
    unfold convert
    refine ConvertM.shapes_bind (shapes_convertAll sc.frame ps σ) fun _ σ => ?_
    exact ConvertM.shapes_bind (ConvertM.shapes_ofExcept ..) fun body σ => shapes_finish ..

theorem shapes_convertAll (parent : Frame) :
    ∀ (ps : List Plan) (σ : Store), (convertAll parent ps σ).2.shapes = σ.shapes
  | [], σ => rfl
  | p :: ps, σ => by
    unfold convertAll
    refine ConvertM.shapes_bind (shapes_convert parent p σ) fun _ σ => ?_
    exact ConvertM.shapes_bind (shapes_convertAll parent ps σ) fun _ _ => rfl

end

end Plan

namespace Session

theorem shapes_compileAlone (t : ScopeTable) (id : ScopeId) (σ : Store) :
    (compileAlone t id σ).2.shapes = σ.shapes := by
  unfold compileAlone
  refine ConvertM.shapes_bind (ConvertM.shapes_ofExcept ..) fun p σ => ?_
  refine ConvertM.shapes_bind (p.shapes_convert .root σ) fun e σ => ?_
  split <;> rfl

/-! ## Carrying an environment -/

/-- What carries the environment in these segments. -/
def carriedIn (env : Env) (span : Span) (fresh : LocalId) : List Segment → Option Carried × LocalId
  | [] => (none, fresh)
  | head :: rest =>
    (some ⟨env, ⟨head, rest⟩, ⟨fresh, carrierName, Layout.headTy ⟨head, rest⟩, span⟩⟩, fresh + 1)

/-- What carries an environment depends on the store only through the segments of its layout. -/
theorem carry_cases (env : Env) (span : Span) (fresh : LocalId) :
    (∀ σ, carry env span fresh σ = (.ok (none, fresh), σ)) ∨
      ∀ σ, carry env span fresh σ =
        (.ok (carriedIn env span fresh
            (Layout.link 0 (segmentLengths env.types.length) env.types σ).1),
          (Layout.link 0 (segmentLengths env.types.length) env.types σ).2) := by
  cases he : env.isEmpty with
  | true =>
    refine .inl fun σ => ?_
    unfold carry
    rw [he]
    rfl
  | false =>
    have hne : env.types ≠ [] := by
      intro h
      rw [Env.types, List.map_eq_nil_iff] at h
      simp [Env.isEmpty, h] at he
    refine .inr fun σ => ?_
    have hs := Layout.segments_link 0 hne σ
    cases hr : Layout.link 0 (segmentLengths env.types.length) env.types σ with
    | mk segs σ' =>
      rw [hr] at hs
      cases segs with
      | nil => cases hs
      | cons head rest => exact carry_of_not_empty he (Layout.ofTypes_of_link hr)

/-- All stores carry an environment in the same way, up to the numbers of shapes. -/
theorem carry_unnumbered {env : Env} {span : Span} {fresh m n : LocalId} {c c' : Option Carried}
    {σ σ' τ τ' : Store} (h : carry env span fresh σ = (.ok (c, m), σ'))
    (h' : carry env span fresh τ = (.ok (c', n), τ')) :
    c.map Carried.unnumbered = c'.map Carried.unnumbered ∧ m = n := by
  rcases carry_cases env span fresh with hc | hc
  · rw [hc] at h h'
    cases h
    cases h'
    exact ⟨rfl, rfl⟩
  · have hsegs := Layout.link_unnumbered 0 (segmentLengths env.types.length) env.types σ τ
    rw [hc] at h h'
    generalize (Layout.link 0 (segmentLengths env.types.length) env.types σ).1 = segs at h hsegs
    generalize (Layout.link 0 (segmentLengths env.types.length) env.types τ).1 = segs' at h' hsegs
    cases segs with
    | nil =>
      obtain rfl := List.map_eq_nil_iff.mp hsegs.symm
      cases h
      cases h'
      exact ⟨rfl, rfl⟩
    | cons head rest =>
      obtain ⟨head', rest', rfl, hhead, hrest⟩ := List.map_eq_cons_iff.mp hsegs.symm
      cases h
      cases h'
      simp only [Option.map_some, Carried.unnumbered, hhead, hrest, and_self]

theorem rows_carry (env : Env) (span : Span) (fresh : LocalId) (σ : Store) :
    σ.shapes.rows <+: (carry env span fresh σ).2.shapes.rows := by
  rcases carry_cases env span fresh with h | h
  · exact ⟨[], by rw [h, List.append_nil]⟩
  · rw [h]
    exact Layout.rows_link ..

theorem carry_eq {env : Env} {span : Span} {fresh : LocalId} {σ τ : Store}
    (h : (carry env span fresh σ).2.shapes.Consistent (carry env span fresh τ).2.shapes) :
    (carry env span fresh σ).1 = (carry env span fresh τ).1 := by
  rcases carry_cases env span fresh with hc | hc
  · rw [hc, hc]
  · rw [hc, hc] at h ⊢
    exact congrArg (fun segs => Except.ok (carriedIn env span fresh segs)) (Layout.link_eq h)

theorem shapes_carry (env : Env) (span : Span) (fresh : LocalId) {σ τ : Store}
    (h : σ.shapes = τ.shapes) :
    (carry env span fresh σ).2.shapes = (carry env span fresh τ).2.shapes := by
  rcases carry_cases env span fresh with hc | hc
  · rw [hc, hc, h]
  · rw [hc, hc]
    exact Layout.shapes_link h ..

end Session

end ClosureConversion
