import ClosureConversion.Proofs.Layouts
import ClosureConversion.Proofs.Lexical
import ClosureConversion.Proofs.Process
import Mathlib.Data.List.Forall2

/-!
Carriers at run time.

`Stores segs ws v`: the chain of carriers that starts at `v` holds the values `ws` in these segments.
`eval_chain_eq`: running the code of a chain runs the code of all values and then makes the carriers.
`builds_build`: making them gives such a chain if every value has the type of its field; otherwise it
fails on the first value that has not, in the order `checkOrder`.
`eval_access`: running the code that reads a position of a chain gives the value stored there.
-/

namespace ClosureConversion

/-- The carriers hold these values. -/
inductive Stores : List Segment → List Value → Value → Prop
  | last {s : Segment} {ws : List Value} {label : Label} :
      Stores [s] ws (.carrier label s.shape ws)
  | link {s t : Segment} {ts : List Segment} {ws : List Value} {label : Label} {next : Value} :
      Stores (t :: ts) (ws.drop Layout.tailSlot) next →
      Stores (s :: t :: ts) ws (.carrier label s.shape (ws.take Layout.tailSlot ++ [next]))

theorem Stores.shape {s : Segment} {ss : List Segment} {ws : List Value} {v : Value}
    (h : Stores (s :: ss) ws v) : ∃ label fields, v = .carrier label s.shape fields := by
  cases h with
  | last => exact ⟨_, _, rfl⟩
  | link _ => exact ⟨_, _, rfl⟩

/-- Running the expression here gives the value and changes nothing. -/
def Yields (call : Closure → List Value → EvalM Value) (ctx : Context) (e : Expr) (v : Value) :
    Prop :=
  ∀ σ, e.eval call ctx σ = (.ok v, σ)

/-- Only labels are used up. -/
structure Store.Labels (σ σ' : Store) : Prop where
  next : σ.nextLabel ≤ σ'.nextLabel
  functions : σ'.functions = σ.functions

namespace Store.Labels

theorem refl (σ : Store) : σ.Labels σ := ⟨Nat.le_refl _, rfl⟩

theorem trans {σ₁ σ₂ σ₃ : Store} (h : σ₁.Labels σ₂) (k : σ₂.Labels σ₃) : σ₁.Labels σ₃ :=
  ⟨Nat.le_trans h.next k.next, k.functions.trans h.functions⟩

theorem newLabel (σ : Store) : σ.Labels { σ with nextLabel := σ.nextLabel + 1 } :=
  ⟨Nat.le_succ _, rfl⟩

end Store.Labels

/-! ## Checking fields -/

namespace Datum

theorem checkFields_append {vs : List Value} {tys : List Ty} (h : vs.length = tys.length)
    (ws : List Value) (tys' : List Ty) :
    checkFields (vs ++ ws) (tys ++ tys') = (do checkFields vs tys; checkFields ws tys') := by
  induction vs generalizing tys with
  | nil =>
    obtain rfl := List.length_eq_zero_iff.mp h.symm
    rfl
  | cons v vs ih =>
    cases tys with
    | nil => cases h
    | cons ty tys =>
      simp only [List.cons_append, checkFields]
      cases v.checked ty with
      | error f => rfl
      | ok _ => exact ih (Nat.succ.inj h)

/-- A carrier passes where a carrier of its shape is expected. -/
theorem checkFields_carrier (label : Label) (shape : Shape) (fields : List Value) :
    checkFields [.carrier label shape fields] [shape.ty] = .ok () := by
  simp [checkFields, checked, conforms, Shape.ty, bind, Except.bind]

theorem newCarrier_eq {shape : Shape} {fields : List Value} (h : fields.length = shape.arity)
    (σ : Store) :
    newCarrier shape fields σ =
      match checkFields fields shape.fields with
      | .ok () => (.ok (.carrier σ.nextLabel shape fields), { σ with nextLabel := σ.nextLabel + 1 })
      | .error f => (.error f, σ) := by
  have hfit : fit shape fields = checkFields fields shape.fields := if_pos h
  cases hk : checkFields fields shape.fields with
  | ok _ => rw [newCarrier_run, hfit, hk]
  | error f => rw [newCarrier_run, hfit, hk]

end Datum

theorem checkOrder_of_le {α : Type} {xs : List α} (h : xs.length ≤ Layout.maxFields) :
    checkOrder xs = xs := by
  rw [checkOrder, if_pos h]

theorem checkOrder_of_lt {α : Type} {xs : List α} (h : Layout.maxFields < xs.length) :
    checkOrder xs = checkOrder (xs.drop Layout.tailSlot) ++ xs.take Layout.tailSlot := by
  rw [checkOrder, if_neg (Nat.not_le_of_gt h)]

theorem length_checkOrder {α : Type} (xs : List α) : (checkOrder xs).length = xs.length := by
  by_cases h : xs.length ≤ Layout.maxFields
  · rw [checkOrder_of_le h]
  · rw [checkOrder_of_lt (Nat.lt_of_not_le h), List.length_append, length_checkOrder, List.length_drop,
      List.length_take]
    simp only [Layout.tailSlot, Layout.maxFields] at *
    omega
termination_by xs.length
decreasing_by
  simp only [List.length_drop, Layout.tailSlot, Layout.maxFields] at *
  omega

theorem checkOrder_map {α β : Type} (f : α → β) (xs : List α) :
    checkOrder (xs.map f) = (checkOrder xs).map f := by
  by_cases h : xs.length ≤ Layout.maxFields
  · rw [checkOrder_of_le h, checkOrder_of_le (by rwa [List.length_map])]
  · have hlt := Nat.lt_of_not_le h
    rw [checkOrder_of_lt hlt, checkOrder_of_lt (by rwa [List.length_map]), ← List.map_drop,
      checkOrder_map f (xs.drop Layout.tailSlot), List.map_append, List.map_take]
termination_by xs.length
decreasing_by
  simp only [List.length_drop, Layout.tailSlot, Layout.maxFields] at *
  omega

theorem mem_checkOrder {α : Type} {x : α} {xs : List α} : x ∈ checkOrder xs ↔ x ∈ xs := by
  by_cases hle : xs.length ≤ Layout.maxFields
  · rw [checkOrder_of_le hle]
  · rw [checkOrder_of_lt (Nat.lt_of_not_le hle), List.mem_append, mem_checkOrder, or_comm,
      ← List.mem_append, List.take_append_drop]
termination_by xs.length
decreasing_by
  simp only [List.length_drop, Layout.tailSlot, Layout.maxFields] at *
  omega

/-- Lists that correspond still do in the order of the checks. -/
theorem forall₂_checkOrder {α β : Type} {R : α → β → Prop} {xs : List α} {ys : List β}
    (h : List.Forall₂ R xs ys) : List.Forall₂ R (checkOrder xs) (checkOrder ys) := by
  have hlen := h.length_eq
  have hxs : (xs.zip ys).map Prod.fst = xs := List.map_fst_zip (Nat.le_of_eq hlen)
  have hys : (xs.zip ys).map Prod.snd = ys := List.map_snd_zip (Nat.le_of_eq hlen.symm)
  have hzip : ∀ p ∈ checkOrder (xs.zip ys), R p.1 p.2 := fun p hp =>
    (List.forall₂_iff_zip.mp h).2 (mem_checkOrder.mp hp)
  have hmap : List.Forall₂ R ((checkOrder (xs.zip ys)).map Prod.fst)
      ((checkOrder (xs.zip ys)).map Prod.snd) := by
    rw [List.forall₂_map_left_iff, List.forall₂_map_right_iff]
    exact List.forall₂_same.mpr hzip
  rwa [← checkOrder_map, ← checkOrder_map, hxs, hys] at hmap

section

variable {call : Closure → List Value → EvalM Value} {ctx : Context}

/-! ## Building a chain -/

theorem length_evalAll {es : List Expr} {vs : List Value} {σ σ' : Store}
    (h : Term.evalAll call ctx es σ = (.ok vs, σ')) : vs.length = es.length := by
  induction es generalizing vs σ with
  | nil =>
    cases h
    rfl
  | cons e es ih =>
    unfold Term.evalAll at h
    obtain ⟨v, σ₁, -, h⟩ := Outcome.bind_eq_ok.mp h
    obtain ⟨ws, σ₂, hws, h⟩ := Outcome.bind_eq_ok.mp h
    cases h
    exact congrArg (· + 1) (ih hws)

theorem evalAll_append (es fs : List Expr) :
    Term.evalAll call ctx (es ++ fs) = (do
      let vs ← Term.evalAll call ctx es
      let ws ← Term.evalAll call ctx fs
      return vs ++ ws) := by
  induction es with
  | nil => simp [Term.evalAll]
  | cons e es ih => simp [Term.evalAll, ih]

theorem evalAll_yields {es : List Expr} {vs : List Value}
    (h : List.Forall₂ (Yields call ctx) es vs) (σ : Store) :
    Term.evalAll call ctx es σ = (.ok vs, σ) := by
  induction h with
  | nil => rfl
  | cons he _ ih =>
    unfold Term.evalAll
    rw [Outcome.bind_ok (he σ), Outcome.bind_ok ih]
    rfl

/-- Makes the carriers of a chain that holds these values, the last carrier first. -/
def Layout.build (ws : List Value) (s : Segment) : List Segment → EvalM Value
  | [] => ExceptT.adapt .fault (Datum.newCarrier s.shape (ws.take s.len))
  | t :: ts => do
    let next ← build (ws.drop s.len) t ts
    ExceptT.adapt .fault (Datum.newCarrier s.shape (ws.take s.len ++ [next]))

/-- The code of a chain runs all values in their order, and then makes the carriers. -/
theorem eval_chain_eq {start : Nat} {types : List Ty} {s : Segment} {ss : List Segment}
    (hs : Segments start types (s :: ss)) {es : List Expr} (hlen : es.length = types.length)
    (σ : Store) :
    (Layout.chain es s ss).eval call ctx σ =
      (Term.evalAll call ctx es >>= fun ws => Layout.build ws s ss) σ := by
  induction ss generalizing start types s es σ with
  | nil =>
    cases hs with
    | last _ _ _ =>
      unfold Layout.chain Term.eval
      simp only [List.take_of_length_le (Nat.le_of_eq hlen)]
      refine Outcome.bind_congr rfl fun ws σ₁ he => ?_
      have hws : ws.take types.length = ws :=
        List.take_of_length_le (Nat.le_of_eq ((length_evalAll he).trans hlen))
      unfold Layout.build
      rw [hws]
  | cons t ts ih =>
    cases hs with
    | link hlt _ hrest =>
      have hhead : (es.take Layout.tailSlot).length = Layout.tailSlot := by
        simp only [List.length_take, Layout.tailSlot, Layout.maxFields] at *
        omega
      have hrun : Term.evalAll call ctx es = (do
          let vs ← Term.evalAll call ctx (es.take Layout.tailSlot)
          let ws ← Term.evalAll call ctx (es.drop Layout.tailSlot)
          return vs ++ ws) := by
        rw [← evalAll_append, List.take_append_drop]
      unfold Layout.chain Term.eval
      rw [hrun, evalAll_append]
      simp only [Term.evalAll, bind_assoc, pure_bind]
      refine Outcome.bind_congr rfl fun vs σ₁ hvs => ?_
      have hv : vs.length = Layout.tailSlot := (length_evalAll hvs).trans hhead
      refine (Outcome.bind_congr (ih hrest (by simp [hlen]) σ₁) fun _ _ _ => rfl).trans ?_
      rw [bind_assoc]
      refine Outcome.bind_congr rfl fun ws σ₂ _ => ?_
      show _ = (Layout.build ((vs ++ ws).drop Layout.tailSlot) t ts >>= fun next =>
        ExceptT.adapt .fault
          (Datum.newCarrier _ ((vs ++ ws).take Layout.tailSlot ++ [next]))) σ₂
      rw [List.drop_left' hv, List.take_left' hv]

/-- How building a chain of these values ends. -/
inductive Builds (segs : List Segment) (ws : List Value) (types : List Ty) (σ : Store) :
    Except Halt Value × Store → Prop
  | ok {v : Value} {σ' : Store} :
      Datum.checkFields (checkOrder ws) (checkOrder types) = .ok () → Stores segs ws v →
      σ.Labels σ' → Builds segs ws types σ (.ok v, σ')
  | error {f : Fault} {σ' : Store} :
      Datum.checkFields (checkOrder ws) (checkOrder types) = .error f → σ.Labels σ' →
      Builds segs ws types σ (.error (.fault f), σ')

theorem builds_build {start : Nat} {types : List Ty} {s : Segment} {ss : List Segment}
    (hs : Segments start types (s :: ss)) {ws : List Value} (hlen : ws.length = types.length)
    (σ : Store) : Builds (s :: ss) ws types σ (Layout.build ws s ss σ) := by
  induction ss generalizing start types s ws with
  | nil =>
    cases hs with
    | last _ hle hf =>
      unfold Layout.build
      rw [List.take_of_length_le (Nat.le_of_eq hlen), Outcome.adapt_eq,
        Datum.newCarrier_eq (by simp [Shape.arity, hf, hlen]), hf]
      have hord : Datum.checkFields (checkOrder ws) (checkOrder types) =
          Datum.checkFields ws types := by
        rw [checkOrder_of_le hle, checkOrder_of_le (hlen ▸ hle)]
      cases hk : Datum.checkFields ws types with
      | ok _ => exact .ok (hord.trans hk) .last (.newLabel σ)
      | error f => exact .error (hord.trans hk) (.refl σ)
  | cons t ts ih =>
    cases hs with
    | @link _ _ shape _ _ hlt hf hrest =>
      have hwlt : Layout.maxFields < ws.length := hlen ▸ hlt
      have hord : Datum.checkFields (checkOrder ws) (checkOrder types) = (do
          Datum.checkFields (checkOrder (ws.drop Layout.tailSlot))
            (checkOrder (types.drop Layout.tailSlot))
          Datum.checkFields (ws.take Layout.tailSlot) (types.take Layout.tailSlot)) := by
        rw [checkOrder_of_lt hlt, checkOrder_of_lt hwlt, Datum.checkFields_append]
        simp only [length_checkOrder, List.length_drop, hlen]
      have hdrop : (ws.drop Layout.tailSlot).length = (types.drop Layout.tailSlot).length := by
        simp [hlen]
      have htail := ih hrest hdrop
      unfold Layout.build
      generalize hb : Layout.build (ws.drop Layout.tailSlot) t ts σ = o at htail
      cases htail with
      | @error f σ' hk hl =>
        rw [Outcome.bind_error hb]
        refine .error ?_ hl
        rw [hord, hk]
        rfl
      | @ok next σ' hk hst hl =>
        have hfields : (ws.take Layout.tailSlot ++ [next]).length = shape.arity := by
          simp [Shape.arity, hf, hlen]
        rw [Outcome.bind_ok hb, Outcome.adapt_eq, Datum.newCarrier_eq hfields, hf,
          Datum.checkFields_append (by simp [hlen])]
        obtain ⟨label, fields, rfl⟩ := hst.shape
        rw [Datum.checkFields_carrier]
        rw [hk] at hord
        cases hw : Datum.checkFields (ws.take Layout.tailSlot) (types.take Layout.tailSlot) with
        | error f => exact .error (hord.trans hw) hl
        | ok _ => exact .ok (hord.trans hw) (.link hst) (hl.trans (.newLabel σ'))

/-! ## Reading a chain -/

variable {σ σ' : Store}

theorem eval_field {carrier : Expr} {label : Label} {shape shape' : Shape} {fields : List Value}
    {slot : Nat} {w : Value} (hc : carrier.eval call ctx σ = (.ok (.carrier label shape fields), σ'))
    (hw : fields[slot]? = some w) :
    (Term.field carrier shape' slot).eval call ctx σ = (.ok w, σ') := by
  unfold Term.eval
  rw [Outcome.bind_ok hc]
  simp only [Datum.fieldAt, hw]
  rfl

theorem eval_follow {start : Nat} {types : List Ty} {segs : List Segment}
    (hs : Segments start types segs) {ws : List Value} {v : Value} (hst : Stores segs ws v)
    (hlen : ws.length = types.length) {carrier e : Expr}
    (hc : carrier.eval call ctx σ = (.ok v, σ')) {index : Nat}
    (he : Layout.follow index carrier segs = .ok e) (hlo : start ≤ index) {w : Value}
    (hw : ws[index - start]? = some w) : e.eval call ctx σ = (.ok w, σ') := by
  have hhi := (List.getElem?_eq_some_iff.mp hw).1
  induction hs generalizing ws v carrier with
  | @last start types shape hne hle hf =>
    have hin : Segment.contains ⟨start, types.length, shape⟩ index = true := by
      simp only [Segment.contains, Bool.and_eq_true, decide_eq_true_eq]
      omega
    unfold Layout.follow at he
    rw [if_pos hin] at he
    obtain ⟨-, rfl⟩ := Layout.readField_eq_ok.mp he
    cases hst with
    | last => exact eval_field hc hw
  | @link start types shape s ss hlt hf hrest ih =>
    have hwlt : Layout.tailSlot < ws.length := by
      simp only [Layout.tailSlot, Layout.maxFields] at *
      omega
    have htake : (ws.take Layout.tailSlot).length = Layout.tailSlot := by
      rw [List.length_take]
      omega
    cases hst with
    | @link _ _ _ _ label next hst =>
      unfold Layout.follow at he
      split at he
      · next hin =>
        simp only [Segment.contains, Bool.and_eq_true, decide_eq_true_eq] at hin
        obtain ⟨-, rfl⟩ := Layout.readField_eq_ok.mp he
        have hlt : index - start < Layout.tailSlot := by omega
        refine eval_field hc ?_
        show (ws.take Layout.tailSlot ++ [next])[index - start]? = some w
        rw [List.getElem?_append_left (htake.symm ▸ hlt), List.getElem?_take_of_lt hlt]
        exact hw
      · next hout =>
        simp only [Segment.contains, Bool.and_eq_true, decide_eq_true_eq, not_and] at hout
        have hge : start + Layout.tailSlot ≤ index := Nat.le_of_not_lt (hout hlo)
        cases hr : Layout.readField carrier shape Layout.tailSlot with
        | error b =>
          rw [hr] at he
          cases he
        | ok c =>
          rw [hr] at he
          obtain ⟨-, rfl⟩ := Layout.readField_eq_ok.mp hr
          have hnext : (ws.take Layout.tailSlot ++ [next])[Layout.tailSlot]? = some next := by
            rw [List.getElem?_append_right (by omega), htake, Nat.sub_self]
            rfl
          have hrest' : (ws.drop Layout.tailSlot)[index - (start + Layout.tailSlot)]? = some w := by
            rw [List.getElem?_drop, ← hw]
            congr 1
            omega
          exact ih hst (by simp [hlen]) (eval_field hc hnext) he hge hrest'
            (by rw [List.length_drop]; omega)

/-- Reading a position of a chain runs the code of the chain, and gives the value at the position. -/
theorem eval_access {types : List Ty} {l : Layout} (hs : Segments 0 types l.segments)
    {ws : List Value} {v : Value} (hst : Stores l.segments ws v) (hlen : ws.length = types.length)
    {carrier e : Expr} (hc : carrier.eval call ctx σ = (.ok v, σ')) {index : Nat}
    (he : l.access index carrier = .ok e) {w : Value} (hw : ws[index]? = some w) :
    e.eval call ctx σ = (.ok w, σ') := by
  unfold Layout.access at he
  split at he
  · exact eval_follow hs hst hlen hc he (Nat.zero_le _) hw
  · cases he

theorem yields_access {types : List Ty} {l : Layout} (hs : Segments 0 types l.segments)
    {ws : List Value} {v : Value} (hst : Stores l.segments ws v) (hlen : ws.length = types.length)
    {carrier e : Expr} (hc : Yields call ctx carrier v) {index : Nat}
    (he : l.access index carrier = .ok e) {w : Value} (hw : ws[index]? = some w) :
    Yields call ctx e w :=
  fun σ => eval_access hs hst hlen (hc σ) he hw

end

end ClosureConversion
