import ClosureConversion.Proofs.Carriers
import ClosureConversion.Proofs.Renaming

/-!
Chains of carriers round-trip.

Values that are evaluated one after the other are what they are alone, up to the labels that are new:
`alike_alone`.  The code of a chain evaluates them so and then makes the carriers (`evaluate_chain`),
which succeeds iff every value has its type (`conform_or_mismatch`); the code that reads a position
then gives the value that stands there.  `carriers_round_trip` puts this together for every
environment that is not empty.
-/

namespace ClosureConversion

variable {lam : Label → Lambda} {base : Label} {σ τ : Store} {inputs : Inputs} {es : List Expr}
  {depth : Nat}

/-- How the evaluation of an expression ends. -/
def Term.outcome (depth : Nat) (inputs : Inputs) (σ : Store) (e : Expr) : Except Halt Value :=
  (e.evaluate depth inputs σ).1

/-- The second value is the first one, with other labels for what is new. -/
def Datum.EqUpTo (new : Label) (v w : Value) : Prop :=
  ∃ map : Label → Label, (∀ l < new, map l = l) ∧
    (∀ l ∈ v.labels, ∀ k ∈ v.labels, map l = map k → l = k) ∧ w = v.relabel map

/-! ## Values one after the other -/

/-- The expressions can be evaluated with these inputs, from this store or from a later one. -/
structure Queued (lam : Label → Lambda) (base : Label) (inputs : Inputs) (σ : Store)
    (es : List Expr) : Prop where
  fine : σ.Fine lam base
  verified : ∀ e ∈ es, e.verify σ.isCompiled [] true = .ok ()
  settled : ∀ e ∈ es, e.Settled lam base σ
  given : ∀ v ∈ inputs.values, v.Settled lam base σ
  below : ∀ v ∈ inputs.values, ∀ l ∈ v.labels, l < base

namespace Queued

theorem later (h : Queued lam base inputs σ es) (hx : σ.Extends τ) (hτ : τ.Fine lam base) :
    Queued lam base inputs τ es where
  fine := hτ
  verified e he := Term.verify_mono hx.isCompiled _ _ _ (h.verified e he)
  settled e he := (h.settled e he).mono hx.toKeeps
  given v hv := (h.given v hv).mono hx.toKeeps
  below := h.below

theorem tail {e : Expr} (h : Queued lam base inputs σ (e :: es)) : Queued lam base inputs σ es where
  fine := h.fine
  verified x hx := h.verified x (List.mem_cons_of_mem e hx)
  settled x hx := h.settled x (List.mem_cons_of_mem e hx)
  given := h.given
  below := h.below

theorem evaluate_eq (h : Queued lam base inputs σ es) {e : Expr} (he : e ∈ es) (depth : Nat) :
    e.evaluate depth inputs σ = e.eval (Closure.invoke depth) ⟨[], some inputs⟩ σ := by
  rw [Term.evaluate_run, h.verified e he]

/-- An expression does the same from this store and from a later one. -/
theorem coupled (h : Queued lam base inputs σ es) (hx : σ.Extends τ) (hτ : τ.Fine lam base)
    {e : Expr} (he : e ∈ es) (depth : Nat) :
    Coupled (renamings lam base) Renaming.Renamed (.start h.fine hτ hx)
      (e.evaluate depth inputs σ) (e.evaluate depth inputs τ) := by
  rw [h.evaluate_eq he, (h.later hx hτ).evaluate_eq he]
  let W : Renaming lam base := .start h.fine hτ hx
  have hi : ∀ v ∈ inputs.values, W.Renamed v v := fun v hv =>
    .of_base (h.given v hv) (h.below v hv)
  exact coupled_whole (W := W) (h.verified e he) (h.settled e he) hi depth

/-- Once the first expression is evaluated, the others can be. -/
theorem next {e : Expr} (h : Queued lam base inputs σ (e :: es)) {r : Except Halt Value}
    (hr : e.evaluate depth inputs σ = (r, τ)) : Queued lam base inputs τ es := by
  have hrun := h.coupled (.refl σ) h.fine List.mem_cons_self depth
  rw [hr] at hrun
  obtain ⟨hx, hτ, -⟩ := settled_of_coupled hrun
  exact h.tail.later hx hτ

end Queued

/-- The values of a whole expression are evaluated as expressions of their own. -/
theorem mapM_evaluate (h : Queued lam base inputs σ es) :
    es.mapM (Term.evaluate depth inputs) σ =
      Term.evalAll (Closure.invoke depth) ⟨[], some inputs⟩ es σ := by
  induction es generalizing σ with
  | nil => rfl
  | cons e es ih =>
    have he := h.evaluate_eq List.mem_cons_self depth
    rw [List.mapM_cons]
    unfold Term.evalAll
    refine Outcome.bind_congr he fun v σ₁ hv => ?_
    exact Outcome.bind_congr (ih (h.next (he.trans hv))) fun _ _ _ => rfl

/-- Each value is what it is alone, up to labels; and the first error is the first one alone. -/
theorem alike_alone (h : Queued lam base inputs σ es) (hx : σ.Extends τ) (hτ : τ.Fine lam base) :
    Alike (List.Forall₂ (Datum.EqUpTo base)) (es.mapM (Term.outcome depth inputs σ))
      (es.mapM (Term.evaluate depth inputs) τ).1 := by
  induction es generalizing τ with
  | nil => exact .ok .nil
  | cons e es ih =>
    have hrun := h.coupled hx hτ List.mem_cons_self depth
    rw [List.mapM_cons, List.mapM_cons, Term.outcome]
    generalize hleft : e.evaluate depth inputs σ = x at hrun
    generalize hright : e.evaluate depth inputs τ = y at hrun
    cases hrun with
    | error hle ht =>
      rw [Outcome.bind_error hright]
      exact .error _
    | @ok W' v w _ _ hle ht hvw =>
      obtain ⟨rfl, rfl⟩ := ht
      have hrest := ih h.tail (hx.trans (Renaming.Le.right hle)) W'.rightFine
      have hsame : Datum.EqUpTo base v w := by
        refine ⟨W'.map, W'.fixed, fun l hl k hk => ?_, hvw.eq⟩
        exact W'.inj l k (hvw.settled.below l hl) (hvw.settled.below k hk)
      rw [Outcome.bind_ok hright]
      generalize hm : es.mapM (Term.outcome depth inputs σ) = m at hrest
      generalize hn : es.mapM (Term.evaluate depth inputs) W'.right = n at hrest
      obtain ⟨r, σ'⟩ := n
      cases hrest with
      | error e =>
        rw [Outcome.bind_error hn]
        exact .error e
      | ok hvs =>
        rw [Outcome.bind_ok hn]
        exact .ok (.cons hsame hvs)

/-- What a client may evaluate. -/
theorem Process.queued {fs : List Closure} (h : Process (fun m => lam m.label = m) σ fs)
    (hv : ∀ e ∈ es, e.verify σ.isCompiled [] true = .ok ())
    (he : ∀ e ∈ es, e.Over (fun m => lam m.label = m) fs)
    (hi : ∀ v ∈ inputs.values, v.Over σ fs) : Queued lam σ.nextLabel inputs σ es := by
  obtain ⟨hfine, hfs⟩ := h.settled
  exact ⟨hfine, hv, fun e hmem => (he e hmem).settled hfs, fun v hmem => (hi v hmem).settled hfs,
    fun v hmem => ((hi v hmem).settled hfs).below⟩

/-! ## The types of the values -/

/-- Every value has its type. -/
def Conform (vs : List Value) (types : List Ty) : Prop :=
  List.Forall₂ (fun v ty => v.conforms ty = true) vs types

theorem checkFields_cases (ps : List (Value × Ty)) :
    (∀ p ∈ ps, p.1.conforms p.2 = true) ∧
        Datum.checkFields (ps.map Prod.fst) (ps.map Prod.snd) = .ok () ∨
      ∃ p ∈ ps, p.1.conforms p.2 = false ∧
        Datum.checkFields (ps.map Prod.fst) (ps.map Prod.snd) = .error (.type p.2 p.1.kind) := by
  induction ps with
  | nil => exact .inl ⟨by simp, rfl⟩
  | cons p ps ih =>
    simp only [List.map_cons, Datum.checkFields, Datum.checked]
    cases hp : p.1.conforms p.2 with
    | false => exact .inr ⟨p, List.mem_cons_self, hp, rfl⟩
    | true =>
      rcases ih with ⟨hall, hok⟩ | ⟨q, hq, hfalse, herror⟩
      · exact .inl ⟨List.forall_mem_cons.mpr ⟨hp, hall⟩, hok⟩
      · exact .inr ⟨q, List.mem_cons_of_mem p hq, hfalse, herror⟩

/-- The fields of a chain are checked in another order, but all of them. -/
theorem conform_or_mismatch {vs : List Value} {types : List Ty} (hlen : vs.length = types.length) :
    Conform vs types ∧ Datum.checkFields (checkOrder vs) (checkOrder types) = .ok () ∨
      ∃ v ty, (v, ty) ∈ vs.zip types ∧ v.conforms ty = false ∧
        Datum.checkFields (checkOrder vs) (checkOrder types) = .error (.type ty v.kind) := by
  have hvs : checkOrder vs = (checkOrder (vs.zip types)).map Prod.fst := by
    rw [← checkOrder_map, List.map_fst_zip (Nat.le_of_eq hlen)]
  have htypes : checkOrder types = (checkOrder (vs.zip types)).map Prod.snd := by
    rw [← checkOrder_map, List.map_snd_zip (Nat.le_of_eq hlen.symm)]
  rw [hvs, htypes]
  rcases checkFields_cases (checkOrder (vs.zip types)) with ⟨hall, hok⟩ | ⟨p, hp, hfalse, herror⟩
  · refine .inl ⟨List.forall₂_iff_zip.mpr ⟨hlen, fun {v ty} hmem => ?_⟩, hok⟩
    exact hall (v, ty) (mem_checkOrder.mpr hmem)
  · exact .inr ⟨p.1, p.2, mem_checkOrder.mp hp, hfalse, herror⟩

theorem Conform.not_mismatch {vs : List Value} {types : List Ty} (h : Conform vs types) {v : Value}
    {ty : Ty} (hmem : (v, ty) ∈ vs.zip types) : v.conforms ty ≠ false := by
  rw [(List.forall₂_iff_zip.mp h).2 hmem]
  decide

/-! ## Chains -/

/-- Evaluating a chain of these values, and reading it. -/
structure Layout.RoundTrips (l : Layout) (types : List Ty) (depth : Nat) (inputs : Inputs) (σ : Store)
    (values : List Expr) (chain : Expr) : Prop where
  /-- Evaluated one after the other, the values are what they are alone, and so is the first error. -/
  alone : Alike (List.Forall₂ (Datum.EqUpTo σ.nextLabel))
    (values.mapM (Term.outcome depth inputs σ)) (values.mapM (Term.evaluate depth inputs) σ).1
  /-- An error of a value is the error of the chain, and nothing comes after it. -/
  error : ∀ h σ', values.mapM (Term.evaluate depth inputs) σ = (.error h, σ') →
    chain.evaluate depth inputs σ = (.error h, σ')
  /-- The chain is built iff every value has its type. -/
  built : ∀ vs σ', values.mapM (Term.evaluate depth inputs) σ = (.ok vs, σ') →
    ((∃ v, chain.outcome depth inputs σ = .ok v) ↔ Conform vs types)
  /-- Otherwise the error names one that has not. -/
  mismatch : ∀ vs σ', values.mapM (Term.evaluate depth inputs) σ = (.ok vs, σ') →
    ¬ Conform vs types → ∃ v ty, (v, ty) ∈ vs.zip types ∧ v.conforms ty = false ∧
      chain.outcome depth inputs σ = .error (.fault (.type ty v.kind))
  /-- A chain that is built holds the values, each at its position. -/
  read : ∀ vs σ', values.mapM (Term.evaluate depth inputs) σ = (.ok vs, σ') →
    (∃ v, chain.outcome depth inputs σ = .ok v) → ∀ index < types.length,
      ∃ e w, l.access index chain = .ok e ∧ vs[index]? = some w ∧
        e.outcome depth inputs σ = .ok w

section

variable {types : List Ty} {l : Layout}

/-- The code of a chain evaluates the values in their order, and then makes the carriers. -/
theorem evaluate_chain (hs : Segments 0 types l.segments) (h : Queued lam base inputs σ es)
    (hlen : es.length = types.length) :
    (Layout.chain es l.head l.rest).evaluate depth inputs σ =
      (es.mapM (Term.evaluate depth inputs) >>= fun vs => Layout.build vs l.head l.rest) σ := by
  rw [Term.evaluate_run, Layout.verify_chain _ _ _ hs hlen h.verified]
  refine (eval_chain_eq hs hlen σ).trans ?_
  exact Outcome.bind_congr (mapM_evaluate h).symm fun _ _ _ => rfl

/-- Reading a chain evaluates it, and gives the value at the position. -/
theorem evaluate_access (hs : Segments 0 types l.segments) {vs : List Value} {v : Value}
    (hst : Stores l.segments vs v) (hlen : vs.length = types.length) {carrier e : Expr}
    (hc : carrier.evaluate depth inputs σ = (.ok v, τ)) {index : Nat}
    (he : l.access index carrier = .ok e) {w : Value} (hw : vs[index]? = some w) :
    e.evaluate depth inputs σ = (.ok w, τ) := by
  rw [Term.evaluate_run] at hc ⊢
  rw [Layout.verify_access he]
  cases hv : carrier.verify σ.isCompiled [] true with
  | error err =>
    rw [hv] at hc
    cases hc
  | ok _ =>
    rw [hv] at hc
    exact eval_access hs hst hlen hc he hw

/-- Once the values are there, the chain is built, or one of them has another type. -/
theorem built_or_mismatch (hs : Segments 0 types l.segments) (h : Queued lam base inputs σ es)
    (hlen : es.length = types.length) {vs : List Value} {σ₁ : Store}
    (hrun : es.mapM (Term.evaluate depth inputs) σ = (.ok vs, σ₁)) :
    vs.length = types.length ∧
      ((Conform vs types ∧ ∃ v σ₂, Stores l.segments vs v ∧
          (Layout.chain es l.head l.rest).evaluate depth inputs σ = (.ok v, σ₂)) ∨
        ∃ v ty, (v, ty) ∈ vs.zip types ∧ v.conforms ty = false ∧
          (Layout.chain es l.head l.rest).outcome depth inputs σ =
            .error (.fault (.type ty v.kind))) := by
  have hvs : vs.length = types.length :=
    (length_evalAll ((mapM_evaluate h).symm.trans hrun)).trans hlen
  have hchain : (Layout.chain es l.head l.rest).evaluate depth inputs σ =
      Layout.build vs l.head l.rest σ₁ := by
    rw [evaluate_chain hs h hlen, Outcome.bind_ok hrun]
  have hbuilds := builds_build hs hvs σ₁
  rw [← hchain] at hbuilds
  refine ⟨hvs, ?_⟩
  generalize ho : (Layout.chain es l.head l.rest).evaluate depth inputs σ = o at hbuilds
  cases hbuilds with
  | @ok v σ₂ hok hst _ =>
    rcases conform_or_mismatch hvs with ⟨hconform, -⟩ | ⟨_, _, _, _, herror⟩
    · exact .inl ⟨hconform, v, σ₂, hst, rfl⟩
    · rw [hok] at herror
      cases herror
  | @error f σ₂ hf _ =>
    rcases conform_or_mismatch hvs with ⟨-, hok⟩ | ⟨v, ty, hmem, hfalse, herror⟩
    · rw [hok] at hf
      cases hf
    · rw [herror] at hf
      cases hf
      exact .inr ⟨v, ty, hmem, hfalse, congrArg Prod.fst ho⟩

theorem roundTrips (hs : Segments 0 types l.segments) (h : Queued lam σ.nextLabel inputs σ es)
    (hlen : es.length = types.length) :
    l.RoundTrips types depth inputs σ es (Layout.chain es l.head l.rest) := by
  constructor
  case alone => exact alike_alone h (.refl σ) h.fine
  case error =>
    intro err σ' hrun
    rw [evaluate_chain hs h hlen, Outcome.bind_error hrun]
  case built =>
    intro vs σ' hrun
    rcases (built_or_mismatch hs h hlen hrun).2 with
      ⟨hconform, v, σ₂, -, hv⟩ | ⟨v, ty, hmem, hfalse, herror⟩
    · exact ⟨fun _ => hconform, fun _ => ⟨v, congrArg Prod.fst hv⟩⟩
    · refine ⟨fun ⟨w, hw⟩ => ?_, fun hconform => absurd hfalse (hconform.not_mismatch hmem)⟩
      rw [herror] at hw
      cases hw
  case mismatch =>
    intro vs σ' hrun hnot
    rcases (built_or_mismatch hs h hlen hrun).2 with ⟨hconform, -⟩ | hmismatch
    · exact absurd hconform hnot
    · exact hmismatch
  case read =>
    intro vs σ' hrun ⟨w, hw⟩ index hi
    obtain ⟨hvs, ⟨-, v, σ₂, hst, hv⟩ | ⟨_, _, _, _, herror⟩⟩ := built_or_mismatch hs h hlen hrun
    · obtain ⟨e, he⟩ := Layout.access_isOk hs hi (Layout.chain es l.head l.rest)
      have hget := List.getElem?_eq_getElem (hvs.symm ▸ hi)
      exact ⟨e, _, he, hget, congrArg Prod.fst (evaluate_access hs hst hvs hv he hget)⟩
    · rw [herror] at hw
      cases hw

end

/-- For every environment that is not empty there is a layout.  A chain is made of as many values as
it has types, and can be read at each of its positions; and reading it gives back the values.  The
client may have run anything before, as long as its lambdas are told apart by their labels. -/
theorem Layout.carriers_round_trip (types : List Ty) (hne : types ≠ []) (σ₀ : Store) :
    ∃ l σ₁, Layout.ofTypes types σ₀ = (.ok l, σ₁) ∧
      (∀ values : List Expr,
        (values.length = types.length → ∃ chain, l.construct values = .ok chain) ∧
        (values.length ≠ types.length →
          l.construct values = .error (.carrierValueCount types.length values.length))) ∧
      (∀ (index : Nat) (carrier : Expr),
        (index < types.length → ∃ e, l.access index carrier = .ok e) ∧
        (types.length ≤ index →
          l.access index carrier = .error (.slotOutOfRange index types.length))) ∧
      ∀ (lam : Label → Lambda) (σ : Store) (fs : List Closure),
        Process (fun m => lam m.label = m) σ fs →
      ∀ inputs : Inputs, (∀ v ∈ inputs.values, v.Over σ fs) →
      ∀ values : List Expr, (∀ e ∈ values, e.Over (fun m => lam m.label = m) fs) →
        (∀ e ∈ values, e.verify σ.isCompiled [] true = .ok ()) →
      ∀ (chain : Expr), l.construct values = .ok chain →
      ∀ depth : Nat, l.RoundTrips types depth inputs σ values chain := by
  obtain ⟨l, σ₁, hl, hs⟩ := Layout.ofTypes_isOk hne σ₀
  have hlen := Layout.len_eq hs
  refine ⟨l, σ₁, hl, fun values => ⟨fun h => ⟨_, Layout.construct_eq_ok hs h⟩, fun h => ?_⟩,
    fun index carrier => ⟨fun h => Layout.access_isOk hs h carrier, fun h => ?_⟩, ?_⟩
  · rw [Layout.construct, hlen, if_neg h]
  · rw [Layout.access, hlen, if_neg (Nat.not_lt_of_le h)]
  · intro lam σ fs hprocess inputs hi values hover hv chain hc depth
    rw [Layout.construct, hlen] at hc
    split at hc
    · next hvalues =>
      cases hc
      exact roundTrips hs (hprocess.queued hv hover hi) hvalues
    · cases hc

/-- The first type is a function's, the other ones are those of its arguments. -/
def nineTypes : List Ty := .function [.int] .int :: List.replicate 8 .int

/-- The first value is a new function, and the last one calls it. -/
def nineValues : List Expr :=
  successor.toExpr :: [1, 2, 3, 4, 5, 6, 7].map Term.int ++ [.call successor.toExpr [.int 7]]

/-- Nine values stand in two carriers, and come back from both; in the reverse order they do not have
their types. -/
theorem Layout.carriers_round_trip_nine :
    ∃ l chain first last, (Layout.ofTypes nineTypes {}).1 = .ok l ∧
      l.construct nineValues = .ok chain ∧ l.access 0 chain = .ok first ∧
      l.access 8 chain = .ok last ∧ l.access 9 chain = .error (.slotOutOfRange 9 9) ∧
      first.outcome 1 {} {} = .ok (.function (successor.closure 0)) ∧
      last.outcome 1 {} {} = .ok (.int 8) ∧
      ∃ reversed, l.construct nineValues.reverse = .ok reversed ∧
        ∀ v, reversed.outcome 1 {} {} ≠ .ok v := by
  obtain ⟨l, σ₁, hl, hconstruct, haccess, htrip⟩ :=
    Layout.carriers_round_trip nineTypes (by simp [nineTypes]) {}
  -- what a client needs to evaluate them
  have hfunctions : nineValues.flatMap Term.functions = [] := rfl
  have hlambdas : nineValues.flatMap Term.lambdas = [successor, successor] := rfl
  have hover : ∀ e ∈ nineValues, e.Over (fun m => successor = m) [] := by
    intro e he
    constructor
    · rw [List.flatMap_eq_nil_iff.mp hfunctions e he]
      simp
    · intro m hm
      have hmem : m ∈ [successor, successor] := hlambdas ▸ List.mem_flatMap.mpr ⟨e, he, hm⟩
      simp only [List.mem_cons, List.not_mem_nil, or_false, or_self] at hmem
      exact hmem.symm
  have hverify : ∀ e ∈ nineValues, e.verify (Store.isCompiled {}) [] true = .ok () :=
    Term.verifyAll_eq_ok.mp rfl
  have htrip := htrip (fun _ => successor) {} [] (.start rfl) {} (by simp [Inputs.values])
  obtain ⟨chain, hchain⟩ := (hconstruct nineValues).1 rfl
  have hforth := htrip nineValues hover hverify chain hchain 1
  have hrun : nineValues.mapM (Term.evaluate 1 {}) {} =
      (.ok (.function (successor.closure 0) :: [1, 2, 3, 4, 5, 6, 7, 8].map Datum.int),
        Store.record {} successor) := rfl
  have hbuilt := (hforth.built _ _ hrun).mpr (by unfold Conform; decide)
  obtain ⟨first, v, hfirst, hv, hfirst'⟩ := hforth.read _ _ hrun hbuilt 0 (by decide)
  obtain ⟨last, w, hlast, hw, hlast'⟩ := hforth.read _ _ hrun hbuilt 8 (by decide)
  obtain rfl := Option.some.inj hv
  obtain rfl := Option.some.inj hw
  obtain ⟨reversed, hreversed⟩ := (hconstruct nineValues.reverse).1 rfl
  have hback := htrip nineValues.reverse (fun e he => hover e (List.mem_reverse.mp he))
    (fun e he => hverify e (List.mem_reverse.mp he)) reversed hreversed 1
  have hrun' : nineValues.reverse.mapM (Term.evaluate 1 {}) {} =
      (.ok ([8, 7, 6, 5, 4, 3, 2, 1].map Datum.int ++ [.function (successor.closure 0)]),
        Store.record {} successor) := rfl
  refine ⟨l, chain, first, last, congrArg Prod.fst hl, hchain, hfirst, hlast,
    (haccess 9 chain).2 (by decide), hfirst', hlast', reversed, hreversed, fun v hv => ?_⟩
  cases (hback.built _ _ hrun').mp ⟨v, hv⟩ with
  | cons h _ => cases h

end ClosureConversion
