import ClosureConversion.Proofs.RoundTrip

/-!
The number of a carrier shape stands for its field list.

Conformance of a carrier to a carrier type compares two numbers and nothing else.  So what is known of
a carrier from its type rests on the table that hands the numbers out: over all requests to it, two
shapes have the same number iff they were asked for with the same fields (`Knows.id_eq_iff`,
`issued_mapM`), and what was handed out stays (`Knows.intern_eq`).

A carrier is checked against its shape when it is made.  `Datum.Made` says that this is how all
carriers within a value came about, and `Datum.HasFields` that a value is a carrier with fields of
given types, and its fields of carrier types again, down to the end.

`shape_identity`: a value conforms to the type of a shape iff it was made with the fields of that shape,
and then it has such fields.
-/

namespace ClosureConversion

namespace ShapeTable

variable {t t' : ShapeTable} {s s' : Shape}

/-! ## What a table knows -/

theorem Knows.mono (hk : t.Knows s) (h : t.rows <+: t'.rows) : t'.Knows s := by
  obtain ⟨rest, hrest⟩ := h
  obtain ⟨hpos, hrow⟩ := hk
  have hlt := (List.getElem?_eq_some_iff.mp hrow).1
  refine ⟨hpos, ?_⟩
  rw [← hrest, List.getElem?_append_left hlt, hrow]

theorem Knows.id_le (hk : t.Knows s) : s.id ≤ t.rows.length := by
  have hlt := (List.getElem?_eq_some_iff.mp hk.2).1
  omega

/-- Where no field list has two numbers, shapes have the same number iff they have the same fields. -/
theorem Knows.id_eq_iff (hd : t.rows.Nodup) (h : t.Knows s) (h' : t.Knows s') :
    s.id = s'.id ↔ s.fields = s'.fields := by
  obtain ⟨hpos, hrow⟩ := h
  obtain ⟨hpos', hrow'⟩ := h'
  have hlt := (List.getElem?_eq_some_iff.mp hrow).1
  constructor
  · intro hid
    rw [← hid, hrow] at hrow'
    exact Option.some.inj hrow'
  · intro hfields
    have hrows : t.rows[s.id - 1]? = t.rows[s'.id - 1]? := by rw [hrow, hrow', hfields]
    have := (List.getElem?_inj hlt hd).mp hrows
    omega

/-- Asking again gives the same shape, and changes nothing. -/
theorem Knows.intern_eq (hd : t.rows.Nodup) (hk : t.Knows s) : intern s.fields t = (s, t) := by
  have htable : (intern s.fields t).2 = t := by
    unfold intern
    cases h : t.rows.idxOf? s.fields with
    | some i => rfl
    | none => exact absurd (List.mem_of_getElem? hk.2) (List.idxOf?_eq_none_iff.mp h)
  have hknown := knows_intern s.fields t
  rw [htable] at hknown
  have hfields := fields_intern s.fields t
  have hid := (hknown.id_eq_iff hd hk).mpr hfields
  generalize intern s.fields t = r at htable hfields hid
  obtain ⟨⟨id, fields⟩, table⟩ := r
  cases htable
  cases hfields
  cases hid
  rfl

/-! ## Requests -/

theorem nodup_intern (fields : List Ty) (hd : t.rows.Nodup) : (intern fields t).2.rows.Nodup := by
  unfold intern
  cases h : t.rows.idxOf? fields with
  | some i => exact hd
  | none =>
    have hnew : fields ∉ t.rows := List.idxOf?_eq_none_iff.mp h
    rw [List.nodup_append]
    refine ⟨hd, by simp, fun a ha b hb hab => ?_⟩
    obtain rfl := List.mem_singleton.mp hb
    exact hnew (hab ▸ ha)

theorem length_intern_le (fields : List Ty) (t : ShapeTable) :
    (intern fields t).2.rows.length ≤ t.rows.length + 1 := by
  unfold intern
  cases t.rows.idxOf? fields <;> simp

/-- What comes of a sequence of requests to a table: the shapes handed out, and the table after. -/
structure Issued (t : ShapeTable) (calls : List (List Ty)) (shapes : List Shape) (t' : ShapeTable) :
    Prop where
  fields : shapes.map Shape.fields = calls
  known : ∀ s ∈ shapes, t'.Knows s
  grows : t.rows <+: t'.rows
  nodup : t.rows.Nodup → t'.rows.Nodup
  length_le : t'.rows.length ≤ t.rows.length + calls.length

theorem mapM_intern_cons (fields : List Ty) (calls : List (List Ty)) (t : ShapeTable) :
    (fields :: calls).mapM intern t =
      ((intern fields t).1 :: (calls.mapM intern (intern fields t).2).1,
        (calls.mapM intern (intern fields t).2).2) := by
  rw [List.mapM_cons]
  rfl

theorem mapM_intern_append (calls later : List (List Ty)) (t : ShapeTable) :
    (calls ++ later).mapM intern t =
      ((calls.mapM intern t).1 ++ (later.mapM intern (calls.mapM intern t).2).1,
        (later.mapM intern (calls.mapM intern t).2).2) := by
  rw [List.mapM_append]
  rfl

theorem issued_mapM (calls : List (List Ty)) (t : ShapeTable) :
    Issued t calls (calls.mapM intern t).1 (calls.mapM intern t).2 := by
  induction calls generalizing t with
  | nil => exact ⟨rfl, fun s hs => absurd hs List.not_mem_nil, List.prefix_rfl, id, Nat.le_refl _⟩
  | cons fields calls ih =>
    have hrest := ih (intern fields t).2
    rw [mapM_intern_cons]
    refine ⟨?_, List.forall_mem_cons.mpr ⟨?_, hrest.known⟩, ?_, ?_, ?_⟩
    · rw [List.map_cons, hrest.fields, fields_intern]
    · exact (knows_intern fields t).mono hrest.grows
    · exact (rows_intern fields t).trans hrest.grows
    · exact fun hd => hrest.nodup (nodup_intern fields hd)
    · have hfirst := length_intern_le fields t
      have hmore := hrest.length_le
      simp only [List.length_cons]
      omega

end ShapeTable

/-! ## Carriers and their fields -/

namespace Datum

variable {shapes : List Shape} {v : Value} {s : Shape}

theorem newCarrier_eq_ok {shape : Shape} {fields : List Value} {v : Value} {σ σ' : Store}
    (h : newCarrier shape fields σ = (.ok v, σ')) :
    Conform fields shape.fields ∧ v = .carrier σ.nextLabel shape fields := by
  rw [newCarrier_run] at h
  cases hfit : fit shape fields with
  | error f =>
    rw [hfit] at h
    cases h
  | ok _ =>
    rw [hfit] at h
    cases h
    refine ⟨?_, rfl⟩
    unfold fit at hfit
    split at hfit
    case isFalse => cases hfit
    case isTrue hlen =>
      refine List.forall₂_iff_zip.mpr ⟨hlen, fun {w ty} hmem => ?_⟩
      rcases checkFields_cases (fields.zip shape.fields) with ⟨hall, -⟩ | ⟨p, -, -, herror⟩
      · exact hall (w, ty) hmem
      · rw [List.map_fst_zip (Nat.le_of_eq hlen), List.map_snd_zip (Nat.le_of_eq hlen.symm)] at herror
        rw [herror] at hfit
        cases hfit

/-- The carrier was made with fields of these types. -/
def BuiltWith (v : Value) (types : List Ty) : Prop :=
  ∃ (shape : Shape) (fields : List Value) (σ σ' : Store),
    shape.fields = types ∧ newCarrier shape fields σ = (.ok v, σ')

/-- Each carrier within the value was made, with one of these shapes. -/
def Made (shapes : List Shape) (v : Value) : Prop :=
  ∀ label shape fields, .carrier label shape fields ∈ v.within →
    shape ∈ shapes ∧ ∃ σ σ', newCarrier shape fields σ = (.ok (.carrier label shape fields), σ')

/-- The value is a carrier whose fields have these types.  Where that is a carrier type, it is the type
of one of the shapes, and the field again has the fields of that shape. -/
inductive HasFields (shapes : List Shape) : Value → List Ty → Prop
  | carrier {label : Label} {shape : Shape} {fields : List Value} {types : List Ty}
      (conform : Conform fields types)
      (known : ∀ w id, (w, .carrier id) ∈ fields.zip types → ∃ s ∈ shapes, s.ty = .carrier id)
      (next : ∀ w, ∀ s ∈ shapes, (w, s.ty) ∈ fields.zip types → HasFields shapes w s.fields) :
      HasFields shapes (.carrier label shape fields) types

theorem Made.field {label : Label} {shape : Shape} {fields : List Value}
    (h : Made shapes (.carrier label shape fields)) {w : Value} (hw : w ∈ fields) :
    Made shapes w := by
  intro l s fs hmem
  refine h l s fs ?_
  rw [within, withinAll_eq_flatMap]
  exact List.mem_cons_of_mem _ (List.mem_flatMap.mpr ⟨w, hw, hmem⟩)

theorem Made.self {label : Label} {shape : Shape} {fields : List Value}
    (h : Made shapes (.carrier label shape fields)) :
    shape ∈ shapes ∧
      ∃ σ σ', newCarrier shape fields σ = (.ok (.carrier label shape fields), σ') :=
  h label shape fields (by rw [within]; exact List.mem_cons_self)

theorem eq_carrier_of_conforms {id : Nat} (h : v.conforms (.carrier id) = true) :
    ∃ label shape fields, v = .carrier label shape fields ∧ shape.id = id := by
  cases v <;> simp [conforms] at h
  exact ⟨_, _, _, rfl, h⟩

/-! ## What the number of a shape says -/

section

variable (hid : ∀ s ∈ shapes, ∀ s' ∈ shapes, s.id = s'.id ↔ s.fields = s'.fields)
include hid

theorem conforms_iff_builtWith (hv : v.Made shapes) (hs : s ∈ shapes) :
    v.conforms s.ty = true ↔ v.BuiltWith s.fields := by
  constructor
  · intro h
    obtain ⟨label, shape, fields, rfl, heq⟩ := eq_carrier_of_conforms h
    obtain ⟨hmem, σ, σ', hnew⟩ := hv.self
    exact ⟨shape, fields, σ, σ', (hid shape hmem s hs).mp heq, hnew⟩
  · rintro ⟨shape, fields, σ, σ', htypes, hnew⟩
    obtain ⟨-, rfl⟩ := newCarrier_eq_ok hnew
    have heq := (hid shape hv.self.1 s hs).mpr htypes
    simp [conforms, Shape.ty, heq]

-- A field that is a carrier is smaller than the carrier that holds it.
theorem hasFields_of_conforms (v : Value) (hv : v.Made shapes) (s : Shape) (hs : s ∈ shapes)
    (h : v.conforms s.ty = true) : v.HasFields shapes s.fields := by
  obtain ⟨label, shape, fields, rfl, heq⟩ := eq_carrier_of_conforms h
  obtain ⟨hmem, σ, σ', hnew⟩ := hv.self
  have hconform := (newCarrier_eq_ok hnew).1
  rw [(hid shape hmem s hs).mp heq] at hconform
  have hfield : ∀ w ty, (w, ty) ∈ fields.zip s.fields → w ∈ fields ∧ w.conforms ty = true :=
    fun w ty hzip => ⟨(List.of_mem_zip hzip).1, (List.forall₂_iff_zip.mp hconform).2 hzip⟩
  refine .carrier hconform (fun w id hzip => ?known) (fun w s' hs' hzip => ?next)
  case known =>
    obtain ⟨hw, hty⟩ := hfield w _ hzip
    obtain ⟨label, shape, ws, rfl, rfl⟩ := eq_carrier_of_conforms hty
    exact ⟨shape, (hv.field hw).self.1, rfl⟩
  case next =>
    obtain ⟨hw, hty⟩ := hfield w _ hzip
    have := List.sizeOf_lt_of_mem hw
    exact hasFields_of_conforms w (hv.field hw) s' hs' hty
termination_by sizeOf v

end

end Datum

namespace ShapeTable

/-- Over all requests to a table, the number of a shape stands for its fields: shapes have the same
number iff they were asked for with the same fields, and no later request changes this.  So a value
conforms to the type of a shape iff it was made with the fields of that shape. -/
theorem shape_identity {calls : List (List Ty)} {shapes : List Shape} {t : ShapeTable}
    (hrun : calls.mapM intern {} = (shapes, t)) :
    (shapes.map Shape.fields = calls ∧
      (∀ s ∈ shapes, ∀ s' ∈ shapes, s.id = s'.id ↔ s.fields = s'.fields) ∧
      ∀ s ∈ shapes, 0 < s.id ∧ s.id ≤ calls.length) ∧
    (∀ later, ∃ more t', (calls ++ later).mapM intern {} = (shapes ++ more, t') ∧
      ∀ s ∈ shapes, intern s.fields t' = (s, t')) ∧
    ∀ v : Value, v.Made shapes → ∀ s ∈ shapes,
      (v.conforms s.ty = true ↔ v.BuiltWith s.fields) ∧
      (v.conforms s.ty = true → v.HasFields shapes s.fields) := by
  have hissued : Issued {} calls shapes t := by
    have h := issued_mapM calls {}
    rwa [hrun] at h
  have hd := hissued.nodup List.nodup_nil
  have hid : ∀ s ∈ shapes, ∀ s' ∈ shapes, s.id = s'.id ↔ s.fields = s'.fields :=
    fun s hs s' hs' => (hissued.known s hs).id_eq_iff hd (hissued.known s' hs')
  refine ⟨⟨hissued.fields, hid, fun s hs => ?_⟩, fun later => ?_, fun v hv s hs => ?_⟩
  · have hlen : t.rows.length ≤ calls.length := by simpa using hissued.length_le
    exact ⟨(hissued.known s hs).1, Nat.le_trans (hissued.known s hs).id_le hlen⟩
  · have hlater := issued_mapM later t
    refine ⟨_, _, by rw [mapM_intern_append, hrun], fun s hs => ?_⟩
    exact ((hissued.known s hs).mono hlater.grows).intern_eq (hlater.nodup hd)
  · exact ⟨Datum.conforms_iff_builtWith hid hv hs, Datum.hasFields_of_conforms hid v hv s hs⟩

/-- A pair in a carrier, whose type is asked for twice. -/
theorem shape_identity_nested :
    let pair : Shape := ⟨1, [.bool, .bool]⟩
    let node : Shape := ⟨2, [.int, .carrier 1]⟩
    let inner : Value := .carrier 0 pair [.bool true, .bool false]
    let outer : Value := .carrier 1 node [.int 5, inner]
    [pair.fields, node.fields, pair.fields].mapM intern {} =
        ([pair, node, pair], ⟨[pair.fields, node.fields]⟩) ∧
      outer.Made [pair, node, pair] ∧ ¬ outer.BuiltWith pair.fields ∧
      outer.HasFields [pair, node, pair] node.fields := by
  intro pair node inner outer
  have hrun : [pair.fields, node.fields, pair.fields].mapM intern {} =
      ([pair, node, pair], ⟨[pair.fields, node.fields]⟩) := rfl
  have hmade : outer.Made [pair, node, pair] := by
    intro label shape fields hmem
    have hcases : Datum.carrier label shape fields = outer ∨
        Datum.carrier label shape fields = inner := by
      simpa [outer, inner, Datum.within, Datum.withinAll] using hmem
    rcases hcases with h | h <;> obtain ⟨rfl, rfl, rfl⟩ := Datum.carrier.inj h
    · exact ⟨by simp, { nextLabel := 1 }, _, rfl⟩
    · exact ⟨by simp, { nextLabel := 0 }, _, rfl⟩
  have hvalue := (shape_identity hrun).2.2 outer hmade
  refine ⟨hrun, hmade, fun hbuilt => ?_, (hvalue node (by simp)).2 rfl⟩
  have hconforms := (hvalue pair (by simp)).1.mpr hbuilt
  cases hconforms

end ShapeTable

end ClosureConversion
