import ClosureConversion.Operator
import ClosureConversion.Proofs.Lexical

/-!
What the operators see of a value.

The operators look at scalars and at nothing else: of an array, a function or a carrier they see only
that it is one.  So they do the same to values that are `Akin`: the same data, or two values of one
sort that is no scalar.  What they compute is data without functions, which is the same on both sides.

Only conformance and equality look deeper; where they agree as well, so do `Datum.checked` and the
comparisons.  They agree on `Peers`: the same data, or functions that correspond.
-/

namespace ClosureConversion

/-! ## Data without functions -/

instance : Callable Empty := ⟨nofun, nofun⟩

namespace Datum

variable {φ : Type}

theorem kind_lift (d : Datum Empty) : (d.lift : Datum φ).kind = d.kind := by
  cases d <;> rfl

theorem number?_lift (d : Datum Empty) : (d.lift : Datum φ).number? = d.number? := by
  cases d <;> rfl

theorem toBool_lift (d : Datum Empty) : (d.lift : Datum φ).toBool = d.toBool := by
  cases d <;> rfl

theorem lift_array (items : List (Datum Empty)) :
    (Datum.array items).lift = (Datum.array (items.map lift) : Datum φ) := by
  exact congrArg Datum.array (mapAll_eq_map _ items)

variable [Callable φ]

mutual

theorem conforms_lift : ∀ (d : Datum Empty) (ty : Ty), (d.lift : Datum φ).conforms ty = d.conforms ty
  | .void, ty => by cases ty <;> rfl
  | .bool _, ty => by cases ty <;> rfl
  | .int _, ty => by cases ty <;> rfl
  | .number _, ty => by cases ty <;> rfl
  | .string _, ty => by cases ty <;> rfl
  | .carrier .., ty => by cases ty <;> rfl
  | .array items, ty => by
    cases ty with
    | array item => exact allConform_lift items item
    | _ => rfl

theorem allConform_lift : ∀ (ds : List (Datum Empty)) (ty : Ty),
    allConform (mapAll Empty.elim ds : List (Datum φ)) ty = allConform ds ty
  | [], _ => rfl
  | d :: ds, ty => by
    simp only [mapAll, allConform]
    rw [allConform_lift ds ty]
    exact congrArg (· && _) (conforms_lift d ty)

end

mutual

theorem same_lift : ∀ a b : Datum Empty, (a.lift : Datum φ).same b.lift = a.same b
  | .void, b => by cases b <;> rfl
  | .bool _, b => by cases b <;> rfl
  | .int _, b => by cases b <;> rfl
  | .number _, b => by cases b <;> rfl
  | .string _, b => by cases b <;> rfl
  | .array items, b => by
    cases b with
    | array items' => exact sameAll_lift items items'
    | _ => rfl
  | .carrier l s fields, b => by
    cases b with
    | carrier k r fields' =>
      exact congrArg (fun x => l == k || (s.id == r.id && x)) (sameAll_lift fields fields')
    | _ => rfl

theorem sameAll_lift : ∀ as bs : List (Datum Empty),
    sameAll (mapAll Empty.elim as : List (Datum φ)) (mapAll Empty.elim bs) = sameAll as bs
  | [], [] => rfl
  | [], _ :: _ => rfl
  | _ :: _, [] => rfl
  | a :: as, b :: bs => by
    simp only [mapAll, sameAll]
    rw [sameAll_lift as bs]
    exact congrArg (· && _) (same_lift a b)

end

omit [Callable φ] in
theorem order?_lift (a b : Datum Empty) : (a.lift : Datum φ).order? b.lift = a.order? b := by
  cases a <;> cases b <;> rfl

omit [Callable φ] in
theorem unary_lift (op : UnaryOp) (d : Datum Empty) :
    op.apply (d.lift : Datum φ) = (op.apply d).map lift := by
  cases op <;> cases d <;> rfl

omit [Callable φ] in
theorem binary_lift (op : BinaryOp) (a b : Datum Empty) :
    op.apply (a.lift : Datum φ) b.lift = (op.apply a b).map lift := by
  cases a with
  | int n =>
    cases b with
    | int m =>
      show Datum.int <$> op.onInts n m = (Datum.int <$> op.onInts n m).map lift
      cases op.onInts n m <;> rfl
    | _ => cases op <;> rfl
  | _ => cases b <;> cases op <;> rfl

end Datum

/-- Two results are related, or the same failure. -/
inductive Alike {ε α β : Type} (R : α → β → Prop) : Except ε α → Except ε β → Prop
  | ok {a : α} {b : β} : R a b → Alike R (.ok a) (.ok b)
  | error (e : ε) : Alike R (.error e) (.error e)

/-! ## Akin values -/

namespace Datum

variable {φ : Type}

/-- Neither a scalar nor nothing. -/
def isCompound : Datum φ → Bool
  | .array _ | .function _ | .carrier .. => true
  | _ => false

theorem number?_of_isCompound {v : Datum φ} (h : v.isCompound = true) : v.number? = none := by
  cases v with
  | array _ | function _ | carrier _ _ _ => rfl
  | _ => cases h

theorem toBool_of_isCompound {v : Datum φ} (h : v.isCompound = true) :
    v.toBool = .error (wrongType .bool v) := by
  cases v with
  | array _ | function _ | carrier _ _ _ => rfl
  | _ => cases h

theorem order?_of_isCompound_left {v : Datum φ} (h : v.isCompound = true) (w : Datum φ) :
    v.order? w = none := by
  cases v with
  | array _ | function _ | carrier _ _ _ => cases w <;> rfl
  | _ => cases h

theorem order?_of_isCompound_right (v : Datum φ) {w : Datum φ} (h : w.isCompound = true) :
    v.order? w = none := by
  cases w with
  | array _ | function _ | carrier _ _ _ => cases v <;> rfl
  | _ => cases h

theorem binary_of_isCompound_left {v : Datum φ} (h : v.isCompound = true) (op : BinaryOp)
    (w : Datum φ) : op.apply v w = .error (wrongType .number v) := by
  cases v with
  | array _ | function _ | carrier _ _ _ => cases op <;> cases w <;> rfl
  | _ => cases h

theorem binary_of_isCompound_right (v : Datum φ) {w : Datum φ} (h : w.isCompound = true)
    (op : BinaryOp) :
    op.apply v w = (do let _ ← v.toNumber; .error (wrongType .number w)) := by
  cases w with
  | array _ | function _ | carrier _ _ _ => cases op <;> cases v <;> rfl
  | _ => cases h

theorem unary_of_isCompound {v : Datum φ} (h : v.isCompound = true) (op : UnaryOp) :
    op.apply v = .error (wrongType (match op with | .neg => .number | .not => .bool) v) := by
  cases v with
  | array _ | function _ | carrier _ _ _ => cases op <;> rfl
  | _ => cases h

/-- Operators compute scalars. -/
theorem isCompound_of_unary {op : UnaryOp} {v w : Datum φ} (h : op.apply v = .ok w) :
    w.isCompound = false := by
  cases op <;> cases v <;> cases h <;> rfl

theorem isCompound_of_binary {op : BinaryOp} {v v' w : Datum φ} (h : op.apply v v' = .ok w) :
    w.isCompound = false := by
  unfold BinaryOp.apply at h
  split at h
  · next a b =>
    cases hr : op.onInts a b with
    | error f =>
      rw [hr] at h
      cases h
    | ok n =>
      rw [hr] at h
      cases h
      rfl
  · cases h
    rfl
  · cases hv : v.toNumber with
    | error f =>
      rw [hv] at h
      cases h
    | ok x =>
      cases hw : v'.toNumber with
      | error f =>
        rw [hv, hw] at h
        cases h
      | ok y =>
        rw [hv, hw] at h
        cases h
        rfl

end Datum

/-- The same data without functions, or values of one sort that is no scalar. -/
inductive Akin {φ ψ : Type} : Datum φ → Datum ψ → Prop
  | data (d : Datum Empty) : Akin d.lift d.lift
  | compound {v : Datum φ} {w : Datum ψ} :
      v.isCompound = true → w.isCompound = true → v.kind = w.kind → Akin v w

namespace Akin

variable {φ ψ : Type} {v v' : Datum φ} {w w' : Datum ψ}

theorem kind_eq (h : Akin v w) : v.kind = w.kind := by
  cases h with
  | data d => rw [Datum.kind_lift, Datum.kind_lift]
  | compound _ _ hk => exact hk

theorem wrongType_eq (h : Akin v w) (ty : Ty) : wrongType ty v = wrongType ty w :=
  congrArg (Fault.type ty) h.kind_eq

theorem number?_eq (h : Akin v w) : v.number? = w.number? := by
  cases h with
  | data d => rw [Datum.number?_lift, Datum.number?_lift]
  | compound hv hw _ => rw [Datum.number?_of_isCompound hv, Datum.number?_of_isCompound hw]

theorem toNumber_eq (h : Akin v w) : v.toNumber = w.toNumber := by
  unfold Datum.toNumber
  rw [h.number?_eq, h.wrongType_eq]

theorem toBool_eq (h : Akin v w) : v.toBool = w.toBool := by
  cases h with
  | data d => rw [Datum.toBool_lift, Datum.toBool_lift]
  | compound hv hw hk =>
    rw [Datum.toBool_of_isCompound hv, Datum.toBool_of_isCompound hw, wrongType, hk, wrongType]

theorem order?_eq (h : Akin v w) (h' : Akin v' w') : v.order? v' = w.order? w' := by
  cases h with
  | compound hv hw _ =>
    rw [Datum.order?_of_isCompound_left hv, Datum.order?_of_isCompound_left hw]
  | data d =>
    cases h' with
    | data d' => rw [Datum.order?_lift, Datum.order?_lift]
    | compound hv hw _ =>
      rw [Datum.order?_of_isCompound_right _ hv, Datum.order?_of_isCompound_right _ hw]

/-- The operator computes a scalar, the same on both sides. -/
theorem unary (h : Akin v w) (op : UnaryOp) :
    ∃ r : Except Fault (Datum Empty), (∀ d, r = .ok d → d.isCompound = false) ∧
      op.apply v = r.map Datum.lift ∧ op.apply w = r.map Datum.lift := by
  cases h with
  | data d =>
    exact ⟨op.apply d, fun _ => Datum.isCompound_of_unary, Datum.unary_lift op d,
      Datum.unary_lift op d⟩
  | compound hv hw hk =>
    refine ⟨.error _, nofun, (Datum.unary_of_isCompound hv op).trans rfl, ?_⟩
    rw [Datum.unary_of_isCompound hw op, wrongType, wrongType, hk]
    rfl

theorem binary (h : Akin v w) (h' : Akin v' w') (op : BinaryOp) :
    ∃ r : Except Fault (Datum Empty), (∀ d, r = .ok d → d.isCompound = false) ∧
      op.apply v v' = r.map Datum.lift ∧ op.apply w w' = r.map Datum.lift := by
  have hnum := h.toNumber_eq
  cases h with
  | compound hv hw hk =>
    refine ⟨.error _, nofun, (Datum.binary_of_isCompound_left hv op v').trans rfl, ?_⟩
    rw [Datum.binary_of_isCompound_left hw op w', wrongType, wrongType, hk]
    rfl
  | data d =>
    cases h' with
    | data d' =>
      exact ⟨op.apply d d', fun _ => Datum.isCompound_of_binary, Datum.binary_lift op d d',
        Datum.binary_lift op d d'⟩
    | compound hv hw hk =>
      rw [Datum.binary_of_isCompound_right _ hv, Datum.binary_of_isCompound_right _ hw, ← hnum,
        wrongType, wrongType, ← hk]
      cases (d.lift : Datum φ).toNumber with
      | error f => exact ⟨.error f, nofun, rfl, rfl⟩
      | ok _ => exact ⟨.error _, nofun, rfl, rfl⟩

variable [Callable φ] [Callable ψ]

theorem compare_eq (h : Akin v w) (h' : Akin v' w') (hs : v.same v' = w.same w')
    (op : Comparison) : op.apply v v' = op.apply w w' := by
  have hkind : ∀ c : Bool, (if c then v else v').kind = (if c then w else w').kind := by
    intro c
    cases c with
    | true => exact h.kind_eq
    | false => exact h'.kind_eq
  unfold Comparison.apply wrongType
  rw [h.order?_eq h', hs, h.number?_eq, hkind]

theorem checked {R : Datum φ → Datum ψ → Prop} (h : Akin v w) (hr : R v w) {ty : Ty}
    (hc : v.conforms ty = w.conforms ty) : Alike R (v.checked ty) (w.checked ty) := by
  unfold Datum.checked
  rw [hc, h.wrongType_eq]
  split
  · exact .ok hr
  · exact .error _

end Akin

/-! ## Peers -/

/-- The same data without functions, or functions that correspond. -/
inductive Peers {φ ψ : Type} (R : φ → ψ → Prop) : Datum φ → Datum ψ → Prop
  | data (d : Datum Empty) : Peers R d.lift d.lift
  | function {f : φ} {g : ψ} : R f g → Peers R (.function f) (.function g)

namespace Peers

variable {φ ψ : Type} {R : φ → ψ → Prop} {v v' : Datum φ} {w w' : Datum ψ}

theorem akin (h : Peers R v w) : Akin v w := by
  cases h with
  | data d => exact .data d
  | function _ => exact .compound rfl rfl rfl

theorem exists_function {f : φ} (h : Peers R (.function f) w) : ∃ g, w = .function g ∧ R f g := by
  generalize hv : Datum.function f = v at h
  cases h with
  | data d =>
    cases d with
    | function x => exact x.elim
    | _ => cases hv
  | function hr =>
    cases hv
    exact ⟨_, rfl, hr⟩

variable [Callable φ] [Callable ψ]

theorem conforms_eq (h : Peers R v w)
    (harity : ∀ f g, R f g → Callable.arity f = Callable.arity g) (ty : Ty) :
    v.conforms ty = w.conforms ty := by
  cases h with
  | data d => rw [Datum.conforms_lift, Datum.conforms_lift]
  | @function f g hr =>
    cases ty with
    | function params result =>
      show (Callable.arity f == params.length) = (Callable.arity g == params.length)
      rw [harity f g hr]
    | _ => rfl

theorem same_eq (h : Peers R v w) (h' : Peers R v' w')
    (hsame : ∀ f g f' g', R f g → R f' g' → Callable.same f f' = Callable.same g g') :
    v.same v' = w.same w' := by
  cases h with
  | data d =>
    cases h' with
    | data d' => rw [Datum.same_lift, Datum.same_lift]
    | function _ =>
      cases d with
      | function x => exact x.elim
      | _ => rfl
  | function hr =>
    cases h' with
    | data d' =>
      cases d' with
      | function x => exact x.elim
      | _ => rfl
    | function hr' => exact hsame _ _ _ _ hr hr'

end Peers

end ClosureConversion
