import ClosureConversion.Proofs.Operators
import ClosureConversion.Proofs.Process
import Mathlib.Data.List.Forall2

/-!
Values under other labels.

Functions and carriers are told apart by their labels, and which labels they get depends on how many
were handed out before.  `Datum.relabel π` gives the functions and carriers of a value other labels
and keeps all else; `Datum.labels` lists the labels that matter to it.  Code is not entered: what it
holds was there before it ran.

Types and operators do not see labels (`conforms_relabel`, `akin_relabel`), and equality sees only
which of them are the same (`same_relabel`).
-/

namespace ClosureConversion

/-! ## Labels -/

mutual

def Closure.labels : Closure → List Label
  | .code label _ _ => [label]
  | .bound label _ first raw => label :: (first.labels ++ raw.labels)

/-- The labels of the functions and carriers in a value. -/
def Datum.labels : Datum Closure → List Label
  | .array items => Datum.labelsAll items
  | .function f => f.labels
  | .carrier label _ fields => label :: Datum.labelsAll fields
  | _ => []

def Datum.labelsAll : List (Datum Closure) → List Label
  | [] => []
  | v :: vs => v.labels ++ Datum.labelsAll vs

end

mutual

def Closure.relabel (π : Label → Label) : Closure → Closure
  | .code label params body => .code (π label) params body
  | .bound label arity first raw => .bound (π label) arity (first.relabel π) (raw.relabel π)

/-- The value with other labels. -/
def Datum.relabel (π : Label → Label) : Datum Closure → Datum Closure
  | .array items => .array (Datum.relabelAll π items)
  | .function f => .function (f.relabel π)
  | .carrier label shape fields => .carrier (π label) shape (Datum.relabelAll π fields)
  | v => v

def Datum.relabelAll (π : Label → Label) : List (Datum Closure) → List (Datum Closure)
  | [] => []
  | v :: vs => v.relabel π :: Datum.relabelAll π vs

end

theorem Datum.labelsAll_eq_flatMap (vs : List Value) : labelsAll vs = vs.flatMap labels := by
  induction vs with
  | nil => rfl
  | cons v vs ih => simp [labelsAll, ih]

theorem Datum.labels_array (vs : List Value) : (Datum.array vs).labels = vs.flatMap labels :=
  labelsAll_eq_flatMap vs

theorem Datum.relabelAll_eq_map (π : Label → Label) (vs : List Value) :
    relabelAll π vs = vs.map (relabel π) := by
  induction vs with
  | nil => rfl
  | cons v vs ih => simp [relabelAll, ih]

mutual

/-- The labels of a value are those of its functions and those of its carriers. -/
theorem Datum.mem_labels (l : Label) : ∀ v : Value,
    l ∈ v.labels ↔ (∃ f ∈ v.functions, l ∈ f.labels) ∨ l ∈ v.carriers
  | .void | .bool _ | .int _ | .number _ | .string _ => by
    simp [labels, functions, carriers, within, function?, carrier?]
  | .array items => by
    rw [functions_array, carriers_array]
    exact Datum.mem_labelsAll l items
  | .function f => by simp [labels, carriers, within, carrier?]
  | .carrier label shape fields => by
    rw [functions_carrier, carriers_carrier, labels, List.mem_cons, List.mem_cons,
      Datum.mem_labelsAll l fields, or_left_comm]

theorem Datum.mem_labelsAll (l : Label) : ∀ vs : List Value,
    l ∈ Datum.labelsAll vs ↔
      (∃ f ∈ vs.flatMap functions, l ∈ f.labels) ∨ l ∈ vs.flatMap carriers
  | [] => by simp [labelsAll]
  | v :: vs => by
    rw [labelsAll, List.mem_append, Datum.mem_labels l v, Datum.mem_labelsAll l vs, List.flatMap_cons,
      List.flatMap_cons, List.mem_append, or_or_or_comm]
    simp only [List.mem_append, or_and_right, exists_or]

end

variable {π ρ : Label → Label}

/-! ## Relabelling -/

mutual

theorem Closure.relabel_congr : ∀ f : Closure, (∀ l ∈ f.labels, π l = ρ l) →
    f.relabel π = f.relabel ρ
  | .code label params body, h => by
    simp only [Closure.relabel, h label List.mem_cons_self]
  | .bound label arity first raw, h => by
    simp only [Closure.labels, List.forall_mem_cons, List.forall_mem_append] at h
    simp only [Closure.relabel, h.1, Datum.relabel_congr first h.2.1, Closure.relabel_congr raw h.2.2]

theorem Datum.relabel_congr : ∀ v : Value, (∀ l ∈ v.labels, π l = ρ l) → v.relabel π = v.relabel ρ
  | .void, _ | .bool _, _ | .int _, _ | .number _, _ | .string _, _ => rfl
  | .array items, h => congrArg Datum.array (Datum.relabelAll_congr items h)
  | .function f, h => congrArg Datum.function (Closure.relabel_congr f h)
  | .carrier label shape fields, h => by
    simp only [Datum.labels, List.forall_mem_cons] at h
    simp only [Datum.relabel, h.1, Datum.relabelAll_congr fields h.2]

theorem Datum.relabelAll_congr : ∀ vs : List Value, (∀ l ∈ Datum.labelsAll vs, π l = ρ l) →
    Datum.relabelAll π vs = Datum.relabelAll ρ vs
  | [], _ => rfl
  | v :: vs, h => by
    simp only [Datum.labelsAll, List.forall_mem_append] at h
    simp only [Datum.relabelAll, Datum.relabel_congr v h.1, Datum.relabelAll_congr vs h.2]

end

mutual

theorem Closure.relabel_id : ∀ f : Closure, f.relabel id = f
  | .code .. => rfl
  | .bound label arity first raw => by
    simp only [Closure.relabel, Datum.relabel_id first, Closure.relabel_id raw, id]

theorem Datum.relabel_id : ∀ v : Value, v.relabel id = v
  | .void | .bool _ | .int _ | .number _ | .string _ => rfl
  | .array items => congrArg Datum.array (Datum.relabelAll_id items)
  | .function f => congrArg Datum.function (Closure.relabel_id f)
  | .carrier label shape fields => congrArg (Datum.carrier label shape) (Datum.relabelAll_id fields)

theorem Datum.relabelAll_id : ∀ vs : List Value, Datum.relabelAll id vs = vs
  | [] => rfl
  | v :: vs => congrArg₂ List.cons (Datum.relabel_id v) (Datum.relabelAll_id vs)

end

theorem Lambda.relabel_closure (m : Lambda) (label : Label) (π : Label → Label) :
    (m.closure label).relabel π = m.closure (π label) := rfl

/-- Labels that are fixed leave a value as it is. -/
theorem Datum.relabel_eq_self {v : Value} (h : ∀ l ∈ v.labels, π l = l) : v.relabel π = v :=
  (Datum.relabel_congr v h).trans v.relabel_id

theorem Closure.label_mem_labels (f : Closure) : f.label ∈ f.labels := by
  cases f <;> exact List.mem_cons_self

@[simp] theorem Closure.label_relabel (f : Closure) : (f.relabel π).label = π f.label := by
  cases f <;> rfl

@[simp] theorem Closure.arity_relabel (f : Closure) : (f.relabel π).arity = f.arity := by
  cases f <;> rfl

/-! ## What does not see labels -/

theorem Datum.akin_relabel (v : Value) : Akin v (v.relabel π) := by
  cases v with
  | array _ | function _ | carrier _ _ _ => exact .compound rfl rfl rfl
  | void => exact .data .void
  | bool b => exact .data (.bool b)
  | int n => exact .data (.int n)
  | number x => exact .data (.number x)
  | string s => exact .data (.string s)

mutual

theorem Datum.conforms_relabel : ∀ (v : Value) (ty : Ty), (v.relabel π).conforms ty = v.conforms ty
  | .void, _ | .bool _, _ | .int _, _ | .number _, _ | .string _, _ => rfl
  | .array items, ty => by
    cases ty with
    | array item => exact Datum.allConform_relabel items item
    | _ => rfl
  | .function f, ty => by
    cases ty with
    | function params result =>
      exact congrArg (· == params.length) f.arity_relabel
    | _ => rfl
  | .carrier .., ty => by cases ty <;> rfl

theorem Datum.allConform_relabel : ∀ (vs : List Value) (ty : Ty),
    allConform (relabelAll π vs) ty = allConform vs ty
  | [], _ => rfl
  | v :: vs, ty =>
    congrArg₂ (· && ·) (Datum.conforms_relabel v ty) (Datum.allConform_relabel vs ty)

end

theorem Datum.checkFields_relabel (vs : List Value) (tys : List Ty) :
    checkFields (vs.map (relabel π)) tys = checkFields vs tys := by
  induction vs, tys using checkFields.induct with
  | case1 v vs ty tys ih =>
    simp only [List.map_cons, checkFields, checked, wrongType, conforms_relabel,
      ← v.akin_relabel.kind_eq, ih]
    split <;> rfl
  | case2 vs tys h =>
    cases vs with
    | nil => rfl
    | cons v vs =>
      cases tys with
      | nil => rfl
      | cons ty tys => exact (h v vs ty tys rfl rfl).elim

theorem Datum.fit_relabel (shape : Shape) (vs : List Value) :
    fit shape (vs.map (relabel π)) = fit shape vs := by
  simp only [fit, List.length_map, checkFields_relabel]

mutual

theorem Datum.same_relabel : ∀ v w : Value,
    (∀ l ∈ v.labels, ∀ k ∈ w.labels, π l = π k → l = k) →
      (v.relabel π).same (w.relabel π) = v.same w
  | .void, w, _ | .bool _, w, _ | .int _, w, _ | .number _, w, _ | .string _, w, _ => by
    cases w <;> rfl
  | .array items, w, h => by
    cases w with
    | array items' => exact Datum.sameAll_relabel items items' h
    | _ => rfl
  | .function f, w, h => by
    cases w with
    | function g =>
      show ((f.relabel π).label == (g.relabel π).label) = (f.label == g.label)
      rw [Closure.label_relabel, Closure.label_relabel, Bool.eq_iff_iff, beq_iff_eq, beq_iff_eq]
      exact ⟨h f.label f.label_mem_labels g.label g.label_mem_labels, congrArg π⟩
    | _ => rfl
  | .carrier l shape fields, w, h => by
    cases w with
    | carrier k shape' fields' =>
      have hlabel : (π l == π k) = (l == k) := by
        rw [Bool.eq_iff_iff, beq_iff_eq, beq_iff_eq]
        exact ⟨h l List.mem_cons_self k List.mem_cons_self, congrArg π⟩
      have hfields := Datum.sameAll_relabel fields fields' fun l hl k hk =>
        h l (List.mem_cons_of_mem _ hl) k (List.mem_cons_of_mem _ hk)
      simp only [relabel, same, hlabel, hfields]
    | _ => rfl

theorem Datum.sameAll_relabel : ∀ vs ws : List Value,
    (∀ l ∈ labelsAll vs, ∀ k ∈ labelsAll ws, π l = π k → l = k) →
      sameAll (relabelAll π vs) (relabelAll π ws) = sameAll vs ws
  | [], [], _ => rfl
  | [], _ :: _, _ => rfl
  | _ :: _, [], _ => rfl
  | v :: vs, w :: ws, h =>
    congrArg₂ (· && ·)
      (Datum.same_relabel v w fun l hl k hk =>
        h l (List.mem_append_left _ hl) k (List.mem_append_left _ hk))
      (Datum.sameAll_relabel vs ws fun l hl k hk =>
        h l (List.mem_append_right _ hl) k (List.mem_append_right _ hk))

end

/-- A call enters the same code, with other labels in its parameters. -/
theorem Closure.enter_relabel (f : Closure) (vs : List Value) :
    (f.relabel π).enter (vs.map (Datum.relabel π)) =
      (f.enter vs).map fun p => (p.1.map fun q => (q.1, q.2.relabel π), p.2) := by
  induction f, vs using Closure.enter.induct with
  | case1 label params body vs hlen =>
    simp only [relabel, enter, List.length_map, hlen, if_true, Except.map, List.zip_map_right]
    rfl
  | case2 label params body vs hlen =>
    simp only [relabel, enter, List.length_map, hlen, if_false, Except.map]
  | case3 label first raw vs ih =>
    simp only [relabel, enter, List.length_map, if_true]
    exact ih
  | case4 label arity first raw vs hlen =>
    simp only [relabel, enter, List.length_map, hlen, if_false, Except.map]

end ClosureConversion
