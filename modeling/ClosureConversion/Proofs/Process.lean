import ClosureConversion.Eval
import ClosureConversion.Proofs.Outcome
import ClosureConversion.Proofs.Tree

/-!
What clients can make.

A client compiles lambdas, binds functions, calls them and evaluates expressions; in between labels
and shapes are handed out.  `Process ok σ fs` says that the store `σ` and the functions `fs` come
about in this way.  Code and data that a client passes in hold only functions that it has:
`Term.Over`, `Datum.Over`.

`Term.functions` lists the functions that code holds, also inside its lambdas, and `Term.lambdas` the
lambdas; `Datum.functions` lists those of data, `Datum.carriers` the labels of the carriers in it.
-/

namespace ClosureConversion

/-! ## What code holds -/

namespace Term

variable {φ : Type}

/-- The subtrees of a node, the body of a lambda included. -/
def parts : Term φ → List (Term φ)
  | .lambda _ _ body => [body]
  | t => t.children

mutual

/-- The nodes in pre-order, those of lambda bodies included. -/
def allNodes : Term φ → List (Term φ)
  | t@(.arg v _ _) => t :: v.allNodes
  | t@(.binary _ l r) => t :: (l.allNodes ++ r.allNodes)
  | t@(.unary _ e) => t :: e.allNodes
  | t@(.compare _ l r) => t :: (l.allNodes ++ r.allNodes)
  | t@(.logical _ l r) => t :: (l.allNodes ++ r.allNodes)
  | t@(.cond c y n) => t :: (c.allNodes ++ y.allNodes ++ n.allNodes)
  | t@(.call f as) => t :: (f.allNodes ++ allNodesAll as)
  | t@(.lambda _ _ b) => t :: b.allNodes
  | t@(.newCarrier _ fs) => t :: allNodesAll fs
  | t@(.field c _ _) => t :: c.allNodes
  | t@(.bind c _ _) => t :: c.allNodes
  | t => [t]

def allNodesAll : List (Term φ) → List (Term φ)
  | [] => []
  | t :: ts => t.allNodes ++ allNodesAll ts

end

theorem allNodesAll_eq_flatMap (ts : List (Term φ)) : allNodesAll ts = ts.flatMap allNodes := by
  induction ts with
  | nil => rfl
  | cons t ts ih => simp [allNodesAll, ih]

theorem allNodes_eq (t : Term φ) : t.allNodes = t :: t.parts.flatMap allNodes := by
  cases t <;> simp [allNodes, parts, children, allNodesAll_eq_flatMap]

theorem mem_parts_of_mem_children {t c : Term φ} (h : c ∈ t.children) : c ∈ t.parts := by
  cases t with
  | lambda _ _ _ => cases h
  | _ => exact h

theorem sizeOf_lt_of_mem_parts {t c : Term φ} (h : c ∈ t.parts) : sizeOf c < sizeOf t := by
  cases t with
  | lambda label params body =>
    obtain rfl := List.mem_singleton.mp h
    rw [lambda.sizeOf_spec]
    omega
  | _ => exact sizeOf_lt_of_mem_children h

/-- As `childInduction`, but through lambda bodies. -/
theorem partInduction {P : Term φ → Prop} (step : ∀ t, (∀ c ∈ t.parts, P c) → P t)
    (t : Term φ) : P t :=
  step t fun c hc =>
    have := sizeOf_lt_of_mem_parts hc
    partInduction step c
termination_by sizeOf t

/-- A function value that stands in the node. -/
def embedded? : Term φ → Option φ
  | .delegate _ f => some f
  | .bind _ f _ => some f
  | _ => none

def functions (t : Term φ) : List φ := t.allNodes.filterMap embedded?

theorem mem_functions_self {t : Term φ} {f : φ} (h : t.embedded? = some f) : f ∈ t.functions := by
  rw [functions, List.mem_filterMap, allNodes_eq]
  exact ⟨t, List.mem_cons_self, h⟩

theorem mem_allNodes_of_part {t c n : Term φ} (hc : c ∈ t.parts) (hn : n ∈ c.allNodes) :
    n ∈ t.allNodes := by
  rw [allNodes_eq]
  exact List.mem_cons_of_mem t (List.mem_flatMap.mpr ⟨c, hc, hn⟩)

theorem mem_functions_of_part {t c : Term φ} {f : φ} (hc : c ∈ t.parts) (hf : f ∈ c.functions) :
    f ∈ t.functions := by
  obtain ⟨n, hn, he⟩ := List.mem_filterMap.mp hf
  exact List.mem_filterMap.mpr ⟨n, mem_allNodes_of_part hc hn, he⟩

def lambda? : Expr → Option Lambda
  | .lambda label params body => some ⟨label, params, body⟩
  | _ => none

/-- The lambdas of the code, outer ones first. -/
def lambdas (e : Expr) : List Lambda := e.allNodes.filterMap lambda?

theorem mem_lambdas_self {e : Expr} {m : Lambda} (h : e.lambda? = some m) : m ∈ e.lambdas := by
  rw [lambdas, List.mem_filterMap, allNodes_eq]
  exact ⟨e, List.mem_cons_self, h⟩

theorem mem_lambdas_of_part {t c : Expr} {m : Lambda} (hc : c ∈ t.parts) (hm : m ∈ c.lambdas) :
    m ∈ t.lambdas := by
  obtain ⟨n, hn, he⟩ := List.mem_filterMap.mp hm
  exact List.mem_filterMap.mpr ⟨n, mem_allNodes_of_part hc hn, he⟩

end Term

/-! ## What data holds -/

namespace Datum

variable {φ : Type}

mutual

/-- The data of which a value is made, the value included. -/
def within : Datum φ → List (Datum φ)
  | v@(.array items) => v :: withinAll items
  | v@(.carrier _ _ fields) => v :: withinAll fields
  | v => [v]

def withinAll : List (Datum φ) → List (Datum φ)
  | [] => []
  | v :: vs => v.within ++ withinAll vs

end

theorem withinAll_eq_flatMap (vs : List (Datum φ)) : withinAll vs = vs.flatMap within := by
  induction vs with
  | nil => rfl
  | cons v vs ih => simp [withinAll, ih]

def functions (v : Datum φ) : List φ := v.within.filterMap function?

def carrier? : Datum φ → Option Label
  | .carrier label _ _ => some label
  | _ => none

def carriers (v : Datum φ) : List Label := v.within.filterMap carrier?

@[simp] theorem functions_function (f : φ) : (Datum.function f).functions = [f] := rfl

@[simp] theorem functions_array (items : List (Datum φ)) :
    (Datum.array items).functions = items.flatMap functions := by
  rw [functions, within, withinAll_eq_flatMap, List.filterMap_cons_none rfl, List.filterMap_flatMap]
  rfl

@[simp] theorem functions_carrier (label : Label) (shape : Shape) (fields : List (Datum φ)) :
    (Datum.carrier label shape fields).functions = fields.flatMap functions := by
  rw [functions, within, withinAll_eq_flatMap, List.filterMap_cons_none rfl, List.filterMap_flatMap]
  rfl

@[simp] theorem carriers_array (items : List (Datum φ)) :
    (Datum.array items).carriers = items.flatMap carriers := by
  rw [carriers, within, withinAll_eq_flatMap, List.filterMap_cons_none rfl, List.filterMap_flatMap]
  rfl

@[simp] theorem carriers_carrier (label : Label) (shape : Shape) (fields : List (Datum φ)) :
    (Datum.carrier label shape fields).carriers = label :: fields.flatMap carriers := by
  have hself : carrier? (Datum.carrier label shape fields) = some label := rfl
  rw [carriers, within, withinAll_eq_flatMap, List.filterMap_cons_some hself, List.filterMap_flatMap]
  rfl

end Datum

/-! ## Processes -/

/-- The code holds only these functions, and its lambdas are admitted. -/
structure Term.Over (ok : Lambda → Prop) (fs : List Closure) (e : Expr) : Prop where
  functions : ∀ f ∈ e.functions, f ∈ fs
  lambdas : ∀ l ∈ e.lambdas, ok l

/-- The data holds only these functions, and its carriers exist. -/
structure Datum.Over (σ : Store) (fs : List Closure) (v : Value) : Prop where
  functions : ∀ f ∈ v.functions, f ∈ fs
  carriers : ∀ l ∈ v.carriers, l < σ.nextLabel

/-- The values that a caller supplies. -/
def Inputs.values (inputs : Inputs) : List Value := inputs.arguments ++ inputs.named.map Prod.snd

/-- The functions that an evaluation hands to its client. -/
def answered : Except Halt Value → List Closure
  | .ok v => v.functions
  | .error _ => []

/-- The store, and the functions that a client has made, with lambdas that satisfy `ok`. -/
inductive Process (ok : Lambda → Prop) : Store → List Closure → Prop
  | start {σ : Store} : σ.functions = [] → Process ok σ []
  /-- Labels and shapes are handed out. -/
  | labels {σ σ' : Store} {fs : List Closure} :
      Process ok σ fs → σ.nextLabel ≤ σ'.nextLabel → σ'.functions = σ.functions → Process ok σ' fs
  | compile {σ σ' : Store} {fs : List Closure} {l : Lambda} {f : Closure} :
      Process ok σ fs → l.toExpr.Over ok fs → l.compile σ = (.ok f, σ') → Process ok σ' (f :: fs)
  | bind {σ σ' : Store} {fs : List Closure} {arity : Nat} {first : Value} {raw f : Closure} :
      Process ok σ fs → raw ∈ fs → first.Over σ fs → Closure.bind arity first raw σ = (.ok f, σ') →
      Process ok σ' (f :: fs)
  | invoke {σ σ' : Store} {fs : List Closure} {f : Closure} {vs : List Value} {depth : Nat}
      {r : Except Halt Value} :
      Process ok σ fs → f ∈ fs → (∀ v ∈ vs, v.Over σ fs) → f.invoke depth vs σ = (r, σ') →
      Process ok σ' (answered r ++ fs)
  | evaluate {σ σ' : Store} {fs : List Closure} {e : Expr} {inputs : Inputs} {depth : Nat}
      {r : Except Halt Value} :
      Process ok σ fs → e.Over ok fs → (∀ v ∈ inputs.values, v.Over σ fs) →
      e.evaluate depth inputs σ = (r, σ') → Process ok σ' (answered r ++ fs)

/-! ## Making functions and carriers -/

/-- The function that the lambda is compiled to, under this label. -/
def Lambda.closure (l : Lambda) (label : Label) : Closure :=
  .code label (l.params.map Param.id) l.body

/-- The store once the lambda is compiled. -/
def Store.record (σ : Store) (l : Lambda) : Store :=
  { σ with
    nextLabel := σ.nextLabel + 1
    functions := (l.label, l.closure σ.nextLabel) :: σ.functions }

theorem Store.function?_record (σ : Store) (l : Lambda) (label : Label) :
    (σ.record l).function? label =
      if label = l.label then some (l.closure σ.nextLabel) else σ.function? label := by
  unfold record function?
  rw [List.lookup_cons]
  by_cases h : label = l.label
  · simp [h]
  · simp only [beq_eq_false_iff_ne.mpr h, if_neg h]

/-- The new function is found, and those that were there. -/
theorem Store.cases_of_record {σ : Store} {l : Lambda} {label : Label} {f : Closure}
    (h : (σ.record l).function? label = some f) :
    label = l.label ∧ f = l.closure σ.nextLabel ∨ label ≠ l.label ∧ σ.function? label = some f := by
  rw [function?_record] at h
  split at h
  · next he => exact .inl ⟨he, (Option.some.inj h).symm⟩
  · next he => exact .inr ⟨he, h⟩

theorem Store.none_of_record {σ : Store} {l : Lambda} {label : Label}
    (h : (σ.record l).function? label = none) : label ≠ l.label ∧ σ.function? label = none := by
  rw [function?_record] at h
  split at h
  · cases h
  · next he => exact ⟨he, h⟩

theorem Lambda.compile_run (l : Lambda) (σ : Store) :
    l.compile σ =
      match σ.function? l.label, l.verify σ.isCompiled with
      | some f, _ => (.ok f, σ)
      | none, .error e => (.error e, σ)
      | none, .ok () => (.ok (l.closure σ.nextLabel), σ.record l) := by
  unfold compile
  simp only [bind, ExceptT.bind, ExceptT.mk, StateT.bind, get, getThe, MonadStateOf.get, liftM,
    monadLift, MonadLift.monadLift, ExceptT.lift, StateT.get, Functor.map, StateT.map]
  simp only [ExceptT.bindCont, pure]
  cases σ.function? l.label with
  | some f => rfl
  | none => cases l.verify σ.isCompiled <;> rfl

/-- What compiling does: a lambda has its function already, or it does not pass the check, or it is
compiled now. -/
theorem Lambda.compile_cases (l : Lambda) (σ : Store) :
    (∃ f, σ.function? l.label = some f ∧ l.compile σ = (.ok f, σ)) ∨
    σ.function? l.label = none ∧
      ((∃ err, l.verify σ.isCompiled = .error err ∧ l.compile σ = (.error err, σ)) ∨
        l.verify σ.isCompiled = .ok () ∧
          l.compile σ = (.ok (l.closure σ.nextLabel), σ.record l)) := by
  rw [compile_run]
  cases hf : σ.function? l.label with
  | some f => exact .inl ⟨f, rfl, rfl⟩
  | none =>
    cases hv : l.verify σ.isCompiled with
    | error err => exact .inr ⟨rfl, .inl ⟨err, rfl, rfl⟩⟩
    | ok _ => exact .inr ⟨rfl, .inr ⟨rfl, rfl⟩⟩

/-- A lambda that is compiled already has its function. -/
theorem Lambda.compile_of_function? {l : Lambda} {σ : Store} {f : Closure}
    (h : σ.function? l.label = some f) : l.compile σ = (.ok f, σ) := by
  rw [compile_run, h]

theorem eval_lambda {call : Closure → List Value → EvalM Value} {ctx : Context} {l : Label}
    {params : List Param} {body : Expr} {f : Closure} {σ σ' : Store}
    (h : Lambda.compile ⟨l, params, body⟩ σ = (.ok f, σ')) :
    (Term.lambda l params body).eval call ctx σ = (.ok (.function f), σ') := by
  unfold Term.eval
  rw [Outcome.map_eq, Outcome.adapt_eq, h]
  rfl

/-- Whether a carrier of the shape can hold the fields. -/
def Datum.fit (shape : Shape) (fields : List Value) : Except Fault Unit :=
  if fields.length = shape.arity then checkFields fields shape.fields
  else .error (.argumentCount shape.arity fields.length)

theorem Datum.newCarrier_run (shape : Shape) (fields : List Value) (σ : Store) :
    newCarrier shape fields σ =
      match fit shape fields with
      | .ok () => (.ok (.carrier σ.nextLabel shape fields), { σ with nextLabel := σ.nextLabel + 1 })
      | .error f => (.error f, σ) := by
  unfold newCarrier fit
  by_cases h : fields.length = shape.arity
  · rw [if_neg (fun hne => hne h), if_pos h]
    cases checkFields fields shape.fields <;> rfl
  · rw [if_pos h, if_neg h]
    rfl

/-- Whether a function can be bound, with `arity` parameters left. -/
def Closure.fit (arity : Nat) (raw : Closure) : Except Fault Unit := do
  checkBoundArity arity
  if raw.arity = arity + 1 then .ok () else .error (.argumentCount (arity + 1) raw.arity)

theorem Closure.bind_run (arity : Nat) (first : Value) (raw : Closure) (σ : Store) :
    raw.bind arity first σ =
      match raw.fit arity with
      | .ok () =>
        (.ok (.bound σ.nextLabel arity first raw), { σ with nextLabel := σ.nextLabel + 1 })
      | .error f => (.error f, σ) := by
  unfold Closure.bind fit
  cases checkBoundArity arity with
  | error f => rfl
  | ok _ =>
    by_cases h : raw.arity = arity + 1
    · simp only [h, ne_eq, not_true, if_false]
      rfl
    · simp only [h, ne_eq, not_false_iff, if_true]
      rfl

theorem Term.evaluate_run (depth : Nat) (inputs : Inputs) (e : Expr) (σ : Store) :
    e.evaluate depth inputs σ =
      match e.verify σ.isCompiled [] true with
      | .error err => (.error (.fault (.misuse (.rejected err))), σ)
      | .ok () => e.eval (Closure.invoke depth) ⟨[], some inputs⟩ σ := by
  unfold evaluate
  have hget : (get : EvalM Store) σ = (.ok σ, σ) := rfl
  rw [Outcome.bind_ok hget]
  cases e.verify σ.isCompiled [] true <;> rfl

end ClosureConversion
