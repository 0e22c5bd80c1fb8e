import ClosureConversion.Layout

/-!
Layouts are chains of segments.

`Segments start types segs` says what the segments of an environment with these field types are, the
first value at position `start`: one segment if eight fields are enough, else one of seven values
and a link, followed by the segments of the rest.  `segments_ofTypes`: every layout that is made has
this form, and one is made for every environment that is not empty.

With it, a chain is built from any list of as many values (`construct_eq_ok`), and each of its
positions can be read (`access_isOk`); code built so passes the checks if its parts do.
-/

namespace ClosureConversion

inductive Segments : Nat → List Ty → List Segment → Prop
  | last {start : Nat} {types : List Ty} {shape : Shape} :
      types ≠ [] → types.length ≤ Layout.maxFields → shape.fields = types →
      Segments start types [⟨start, types.length, shape⟩]
  | link {start : Nat} {types : List Ty} {shape : Shape} {s : Segment} {ss : List Segment} :
      Layout.maxFields < types.length →
      shape.fields = types.take Layout.tailSlot ++ [s.shape.ty] →
      Segments (start + Layout.tailSlot) (types.drop Layout.tailSlot) (s :: ss) →
      Segments start types (⟨start, Layout.tailSlot, shape⟩ :: s :: ss)

namespace Layout

/-! ## Making a layout -/

theorem link_cons {start len : Nat} {lens : List Nat} {types : List Ty} {rest : List Segment}
    {σ σ' : Store} (h : link (start + len) lens (types.drop len) σ = (rest, σ')) :
    link start (len :: lens) types σ =
      (⟨start, len, (Store.shape (types.take len ++ (rest.head?.map (·.shape.ty)).toList) σ').1⟩
        :: rest, (Store.shape (types.take len ++ (rest.head?.map (·.shape.ty)).toList) σ').2) := by
  unfold link
  simp only [bind, StateT.bind]
  rw [h]
  rfl

@[simp] theorem fields_shape (fields : List Ty) (σ : Store) :
    (Store.shape fields σ).1.fields = fields :=
  ShapeTable.fields_intern fields σ.shapes

theorem segments_link (start : Nat) {types : List Ty} (h : types ≠ []) (σ : Store) :
    Segments start types (link start (segmentLengths types.length) types σ).1 := by
  have hpos : 0 < types.length := List.length_pos_iff.mpr h
  rw [segmentLengths, if_neg (Nat.ne_of_gt hpos)]
  by_cases hle : types.length ≤ maxFields
  · have hnil : link (start + types.length) [] (types.drop types.length) σ = ([], σ) := rfl
    rw [if_pos hle, link_cons hnil]
    exact .last h hle (by simp)
  · rw [if_neg hle]
    have hlt : maxFields < types.length := Nat.lt_of_not_le hle
    have hdrop : types.drop tailSlot ≠ [] := by
      intro e
      have := List.drop_eq_nil_iff.mp e
      simp only [tailSlot, maxFields] at *
      omega
    have ih := segments_link (start + tailSlot) hdrop σ
    rw [List.length_drop] at ih
    cases hr : link (start + tailSlot) (segmentLengths (types.length - tailSlot))
        (types.drop tailSlot) σ with
    | mk rest σ' =>
      rw [hr] at ih
      rw [link_cons hr]
      cases rest with
      | nil => cases ih
      | cons s ss => exact .link hlt (by simp) ih
termination_by types.length
decreasing_by
  simp only [List.length_drop, tailSlot, maxFields] at *
  omega

theorem ofTypes_of_link {types : List Ty} {head : Segment} {rest : List Segment} {σ σ' : Store}
    (h : link 0 (segmentLengths types.length) types σ = (head :: rest, σ')) :
    ofTypes types σ = (.ok ⟨head, rest⟩, σ') := by
  unfold ofTypes
  simp only [bind, ExceptT.bind, ExceptT.mk, StateT.bind, liftM, monadLift, MonadLift.monadLift,
    ExceptT.lift, Functor.map, StateT.map]
  rw [h]
  rfl

theorem ofTypes_nil (σ : Store) : ofTypes [] σ = (.error .emptyCarrier, σ) := by
  unfold ofTypes
  rw [List.length_nil, segmentLengths, if_pos rfl]
  rfl

/-- Every environment that is not empty has a layout. -/
theorem ofTypes_isOk {types : List Ty} (h : types ≠ []) (σ : Store) :
    ∃ l σ', ofTypes types σ = (.ok l, σ') ∧ Segments 0 types l.segments := by
  have hs := segments_link 0 h σ
  cases hr : link 0 (segmentLengths types.length) types σ with
  | mk segs σ' =>
    rw [hr] at hs
    cases segs with
    | nil => cases hs
    | cons head rest => exact ⟨⟨head, rest⟩, σ', ofTypes_of_link hr, hs⟩

theorem segments_ofTypes {types : List Ty} {l : Layout} {σ : Store}
    (h : (ofTypes types σ).1 = .ok l) : Segments 0 types l.segments := by
  by_cases hne : types = []
  · subst hne
    rw [ofTypes_nil] at h
    cases h
  · obtain ⟨l', σ', e, hs⟩ := ofTypes_isOk hne σ
    rw [e] at h
    cases h
    exact hs

end Layout

/-! ## Checking code -/

namespace Term

variable {known : Label → Bool} {bound : List LocalId} {root : Bool}

theorem seq_eq_ok {x y : Except CodeError Unit} :
    (do x; y) = .ok () ↔ x = .ok () ∧ y = .ok () := by
  cases x <;> simp [Bind.bind, Except.bind]

theorem verifyAll_eq_ok {es : List Expr} :
    verifyAll known bound root es = .ok () ↔ ∀ e ∈ es, e.verify known bound root = .ok () := by
  induction es with
  | nil => simp [verifyAll]
  | cons e es ih => rw [verifyAll, seq_eq_ok, ih, List.forall_mem_cons]

end Term

/-! ## The length of a chain -/

theorem Segments.sum_len {start : Nat} {types : List Ty} {segs : List Segment}
    (h : Segments start types segs) : segs.foldr (fun s n => s.len + n) 0 = types.length := by
  induction h with
  | last _ _ _ => simp
  | link hlt _ _ ih =>
    rw [List.foldr_cons, ih, List.length_drop]
    simp only [Layout.tailSlot, Layout.maxFields] at *
    omega

namespace Layout

variable {types : List Ty} {l : Layout}

theorem len_eq (h : Segments 0 types l.segments) : l.len = types.length := h.sum_len

/-! ## Building a chain -/

theorem construct_eq_ok (h : Segments 0 types l.segments) {values : List Expr}
    (hv : values.length = types.length) :
    l.construct values = .ok (chain values l.head l.rest) := by
  unfold construct
  rw [if_pos (hv.trans (len_eq h).symm)]

section

variable (known : Label → Bool) (bound : List LocalId) (root : Bool)

/-- A chain of checked values passes the checks: each carrier has as many fields as its shape. -/
theorem verify_chain {start : Nat} {s : Segment} {ss : List Segment}
    (h : Segments start types (s :: ss)) {values : List Expr}
    (hlen : values.length = types.length)
    (hv : ∀ e ∈ values, e.verify known bound root = .ok ()) :
    (chain values s ss).verify known bound root = .ok () := by
  induction ss generalizing start types s values with
  | nil =>
    cases h with
    | last hne hle hf =>
      unfold chain Term.verify
      rw [if_pos]
      · exact Term.verifyAll_eq_ok.mpr fun e he => hv e (List.mem_of_mem_take he)
      · simp [Shape.arity, hf, hlen]
  | cons t ts ih =>
    cases h with
    | link hlt hf hrest =>
      unfold chain Term.verify
      rw [if_pos]
      · refine Term.verifyAll_eq_ok.mpr fun e he => ?_
        rcases List.mem_append.mp he with he | he
        · exact hv e (List.mem_of_mem_take he)
        · rw [List.mem_singleton.mp he]
          refine ih hrest (by simp [hlen]) fun e he => hv e (List.mem_of_mem_drop he)
      · simp [Shape.arity, hf, hlen]

end

/-! ## Reading a chain -/

theorem readField_eq_ok {carrier e : Expr} {shape : Shape} {slot : Nat} :
    readField carrier shape slot = .ok e ↔ slot < shape.arity ∧ e = .field carrier shape slot := by
  unfold readField
  by_cases h : slot < shape.arity
  · simp only [h, if_true, Except.ok.injEq, true_and]
    exact eq_comm
  · simp [h]

/-- A read passes the checks iff the carrier does. -/
theorem verify_follow {known : Label → Bool} {bound : List LocalId} {root : Bool} {index : Nat}
    {carrier e : Expr} {segs : List Segment} (h : follow index carrier segs = .ok e) :
    e.verify known bound root = carrier.verify known bound root := by
  have field : ∀ {c e : Expr} {shape : Shape} {slot : Nat}, readField c shape slot = .ok e →
      e.verify known bound root = c.verify known bound root := by
    intro c e shape slot he
    obtain ⟨hlt, rfl⟩ := readField_eq_ok.mp he
    simp only [Term.verify, hlt, if_true]
  induction segs generalizing carrier with
  | nil => cases h
  | cons s ss ih =>
    unfold follow at h
    split at h
    · exact field h
    · cases hr : readField carrier s.shape tailSlot with
      | error b =>
        rw [hr] at h
        cases h
      | ok c =>
        rw [hr] at h
        exact (ih h).trans (field hr)

theorem follow_isOk {start : Nat} {segs : List Segment} (h : Segments start types segs)
    {index : Nat} (hlo : start ≤ index) (hhi : index < start + types.length) (carrier : Expr) :
    ∃ e, follow index carrier segs = .ok e := by
  induction h generalizing carrier with
  | @last start types shape hne hle hf =>
    unfold follow
    have hin : Segment.contains ⟨start, types.length, shape⟩ index = true := by
      simp [Segment.contains, hlo, hhi]
    rw [if_pos hin]
    refine ⟨_, readField_eq_ok.mpr ⟨?_, rfl⟩⟩
    simp only [Shape.arity, hf]
    omega
  | @link start types shape s ss hlt hf hrest ih =>
    unfold follow
    have harity : shape.arity = maxFields := by
      simp only [Shape.arity, hf, List.length_append, List.length_take, List.length_singleton,
        tailSlot, maxFields] at *
      omega
    by_cases hin : Segment.contains ⟨start, tailSlot, shape⟩ index = true
    · rw [if_pos hin]
      refine ⟨_, readField_eq_ok.mpr ⟨?_, rfl⟩⟩
      simp only [Segment.contains, Bool.and_eq_true, decide_eq_true_eq] at hin
      simp only [harity, tailSlot, maxFields] at *
      omega
    · rw [if_neg hin]
      have htail : readField carrier shape tailSlot = .ok (.field carrier shape tailSlot) :=
        readField_eq_ok.mpr ⟨by rw [harity]; decide, rfl⟩
      simp only [Segment.contains, Bool.and_eq_true, decide_eq_true_eq, not_and] at hin
      have hout := hin hlo
      have hlen : (types.drop tailSlot).length = types.length - tailSlot := List.length_drop
      obtain ⟨e, he⟩ := ih (by omega) (by simp only [hlen, tailSlot, maxFields] at *; omega)
        (.field carrier shape tailSlot)
      exact ⟨e, by rw [htail]; exact he⟩

theorem access_isOk (h : Segments 0 types l.segments) {index : Nat} (hi : index < types.length)
    (carrier : Expr) : ∃ e, l.access index carrier = .ok e := by
  unfold access
  rw [if_pos ((len_eq h).symm ▸ hi)]
  exact follow_isOk h (Nat.zero_le _) (by omega) carrier

theorem verify_access {known : Label → Bool} {bound : List LocalId} {root : Bool} {index : Nat}
    {carrier e : Expr} (h : l.access index carrier = .ok e) :
    e.verify known bound root = carrier.verify known bound root := by
  unfold access at h
  split at h
  · exact verify_follow h
  · cases h

end Layout

end ClosureConversion
