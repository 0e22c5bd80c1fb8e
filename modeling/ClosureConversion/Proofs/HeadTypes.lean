import ClosureConversion.Proofs.ShapeIdentity

/-!
The type of the first carrier stands for the whole environment.

A closure receives the first carrier of a chain, and a carrier type is a number.  The number stands for
a list of fields, the last of which may be the number of the next carrier's shape, and so on to the end
of the chain.

Making a layout is a sequence of requests to the table, the last carrier first: `requests_link`.  So all
that is known of requests holds of it, and in a table that knows two chains, their first shapes have one
number iff the chains hold values of the same types (`Segments.head_id_eq_iff`).  Here a full carrier of
eight values must not be taken for one of seven values and a link; it is not, since no value of an
environment has a carrier type.
-/

namespace ClosureConversion

open ShapeTable (intern)

/-! ## Layouts as requests -/

namespace Layout

/-- The shapes of a chain, from its end, are what the table hands out for some requests. -/
theorem requests_link (start : Nat) (lens : List Nat) (types : List Ty) (σ : Store) :
    ∃ calls : List (List Ty), calls.mapM intern σ.shapes =
      (((link start lens types σ).1.map (·.shape)).reverse, (link start lens types σ).2.shapes) := by
  induction lens generalizing start types with
  | nil => exact ⟨[], rfl⟩
  | cons len lens ih =>
    obtain ⟨calls, hcalls⟩ := ih (start + len) (types.drop len)
    cases h : link (start + len) lens (types.drop len) σ with
    | mk rest σ' =>
      rw [h] at hcalls
      rw [link_cons h]
      refine ⟨calls ++ [types.take len ++ (rest.head?.map (·.shape.ty)).toList], ?_⟩
      rw [ShapeTable.mapM_intern_append, hcalls, ShapeTable.mapM_intern_cons, List.map_cons,
        List.reverse_cons]
      rfl

/-- What making a layout does to a table. -/
theorem issued_ofTypes {types : List Ty} {l : Layout} {σ σ' : Store}
    (h : ofTypes types σ = (.ok l, σ')) :
    ∃ calls, ShapeTable.Issued σ.shapes calls (l.segments.map (·.shape)).reverse σ'.shapes := by
  have hne : types ≠ [] := by
    rintro rfl
    rw [ofTypes_nil] at h
    cases h
  obtain ⟨calls, hcalls⟩ := requests_link 0 (segmentLengths types.length) types σ
  have hs := segments_link 0 hne σ
  cases hr : link 0 (segmentLengths types.length) types σ with
  | mk segs τ =>
    rw [hr] at hcalls hs
    cases segs with
    | nil => cases hs
    | cons head rest =>
      rw [ofTypes_of_link hr] at h
      cases h
      have hissued := ShapeTable.issued_mapM calls σ.shapes
      rw [hcalls] at hissued
      exact ⟨calls, hissued⟩

end Layout

/-! ## Chains with one head -/

namespace Segments

variable {t : ShapeTable} {start start' : Nat} {types types' : List Ty} {s s' : Segment}
  {segs segs' : List Segment}

theorem arity_head (h : Segments start types (s :: segs)) :
    s.shape.arity = min types.length Layout.maxFields := by
  cases h with
  | last _ hle hf => rw [Shape.arity, hf, Nat.min_eq_left hle]
  | link hlt hf _ =>
    simp only [Shape.arity, hf, List.length_append, List.length_take, List.length_singleton,
      Layout.tailSlot, Layout.maxFields] at *
    omega

/-- The fields of one carrier that holds all values are not those of the first carrier of a chain. -/
theorem ne_linked (hplain : ∀ id, Ty.carrier id ∉ types) (front : List Ty) (shape : Shape) :
    types ≠ front ++ [shape.ty] := by
  intro h
  refine hplain shape.id ?_
  rw [h]
  exact List.mem_append_right _ List.mem_cons_self

theorem head_id_eq_iff (hd : t.rows.Nodup) (h : Segments start types (s :: segs))
    (h' : Segments start' types' (s' :: segs')) (hk : ∀ r ∈ s :: segs, t.Knows r.shape)
    (hk' : ∀ r ∈ s' :: segs', t.Knows r.shape) (hplain : ∀ id, Ty.carrier id ∉ types)
    (hplain' : ∀ id, Ty.carrier id ∉ types') : s.shape.id = s'.shape.id ↔ types = types' := by
  have hfields := (hk s List.mem_cons_self).id_eq_iff hd (hk' s' List.mem_cons_self)
  -- along the first chain; where both go on, the numbers in their links are again those of heads
  induction segs generalizing s s' start start' types types' segs' with
  | nil =>
    cases h with
    | last _ hle hf =>
      cases h' with
      | last _ _ hf' => rw [hfields, hf, hf']
      | link hlt hf' _ =>
        rw [hfields, hf, hf']
        refine iff_of_false (ne_linked hplain _ _) ?_
        rintro rfl
        omega
  | cons r segs ih =>
    cases h with
    | link hlt hf hrest =>
      cases h' with
      | last _ hle hf' =>
        rw [hfields, hf, hf']
        refine iff_of_false (ne_linked hplain' _ _).symm ?_
        rintro rfl
        omega
      | @link _ _ _ r' segs' hlt' hf' hrest' =>
        have hknown := List.forall_mem_cons.mp hk
        have hknown' := List.forall_mem_cons.mp hk'
        have htail := ih hrest hrest' hknown.2 hknown'.2
          (fun id hid => hplain id (List.mem_of_mem_drop hid))
          (fun id hid => hplain' id (List.mem_of_mem_drop hid))
          ((hknown.2 r List.mem_cons_self).id_eq_iff hd (hknown'.2 r' List.mem_cons_self))
        rw [hfields, hf, hf']
        constructor
        · intro heq
          obtain ⟨hfront, hlink⟩ := List.append_inj' heq rfl
          have hid : r.shape.id = r'.shape.id := Ty.carrier.inj (List.cons.inj hlink).1
          rw [← List.take_append_drop Layout.tailSlot types, hfront, htail.mp hid,
            List.take_append_drop]
        · rintro rfl
          rw [Shape.ty, Shape.ty, htail.mpr rfl]

end Segments

namespace Layout

/-- Whatever was asked of the table before, between and since: two environments, of values none of
which has a carrier type, have layouts with one head type iff they have the same types. -/
theorem headTy_stands_for_types {types types' : List Ty} (hne : types ≠ []) (hne' : types' ≠ [])
    (hplain : ∀ id, Ty.carrier id ∉ types) (hplain' : ∀ id, Ty.carrier id ∉ types')
    {earlier : List (List Ty)} {σ : Store} (hσ : σ.shapes = (earlier.mapM intern {}).2) :
    ∃ l σ', ofTypes types σ = (.ok l, σ') ∧
      ∀ (between : List (List Ty)) (τ : Store), τ.shapes = (between.mapM intern σ'.shapes).2 →
        ∃ l' τ', ofTypes types' τ = (.ok l', τ') ∧ (l.headTy = l'.headTy ↔ types = types') := by
  obtain ⟨l, σ', hl, hs⟩ := ofTypes_isOk hne σ
  refine ⟨l, σ', hl, fun between τ hτ => ?_⟩
  obtain ⟨l', τ', hl', hs'⟩ := ofTypes_isOk hne' τ
  refine ⟨l', τ', hl', ?_⟩
  obtain ⟨calls, hfirst⟩ := issued_ofTypes hl
  obtain ⟨calls', hsecond⟩ := issued_ofTypes hl'
  have hbetween := ShapeTable.issued_mapM between σ'.shapes
  rw [← hτ] at hbetween
  have hd : τ'.shapes.rows.Nodup := by
    have hstart := (ShapeTable.issued_mapM earlier {}).nodup List.nodup_nil
    rw [← hσ] at hstart
    exact hsecond.nodup (hbetween.nodup (hfirst.nodup hstart))
  have hk : ∀ s ∈ l.segments, τ'.shapes.Knows s.shape := fun s hmem =>
    (hfirst.known s.shape (by simpa using ⟨s, hmem, rfl⟩)).mono
      (hbetween.grows.trans hsecond.grows)
  have hk' : ∀ s ∈ l'.segments, τ'.shapes.Knows s.shape := fun s hmem =>
    hsecond.known s.shape (by simpa using ⟨s, hmem, rfl⟩)
  rw [← hs.head_id_eq_iff hd hs' hk hk' hplain hplain']
  exact ⟨Ty.carrier.inj, congrArg Ty.carrier⟩

/-- Eight values fill a carrier, nine go into one of seven with a link: both heads have eight fields. -/
theorem headTy_stands_for_types_eight_nine :
    ∃ l σ' l' τ', ofTypes (List.replicate 8 .int) {} = (.ok l, σ') ∧
      ofTypes (List.replicate 9 .int) σ' = (.ok l', τ') ∧
      l.head.shape.arity = 8 ∧ l'.head.shape.arity = 8 ∧ l.headTy ≠ l'.headTy := by
  have hne : List.replicate 8 Ty.int ≠ [] := by decide
  have hne' : List.replicate 9 Ty.int ≠ [] := by decide
  have hσ : ({} : Store).shapes = (([] : List (List Ty)).mapM intern {}).2 := rfl
  obtain ⟨l, σ', hl, hlater⟩ :=
    headTy_stands_for_types hne hne' (fun id => by simp) (fun id => by simp) hσ
  obtain ⟨l', τ', hl', hiff⟩ := hlater [] σ' rfl
  refine ⟨l, σ', l', τ', hl, hl', ?_, ?_, fun heq => ?_⟩
  · exact (segments_ofTypes (congrArg Prod.fst hl)).arity_head
  · exact (segments_ofTypes (congrArg Prod.fst hl')).arity_head
  · exact absurd (hiff.mp heq) (by decide)

end Layout

end ClosureConversion
