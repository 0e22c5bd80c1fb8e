import ClosureConversion.Proofs.Closing
import ClosureConversion.Session.Command

/-!
What one command can do to a session.

`Session.Closing` lists the ways in which closing a scope ends, with the answer, the session and the
store that it leaves; `Session.Step` lists what any command does to the session.  Every invariant of
sessions is proved against these two and never against the commands themselves: `closing_close` and
`step_exec`.
-/

namespace ClosureConversion

/-- The record of a scope that is closed with this body. -/
def Draft.toScope (d : Draft) (body : Expr) (eager : Bool) (carried : Option Carried) : Scope :=
  { id := d.id, span := d.span, params := d.params, body, carried, eager, children := d.children }

/-- The scopes within that the body does not use. -/
def Draft.unused (d : Draft) (u : BodyUse) : List ScopeId := d.children.filter (· ∉ u.tokens)

namespace Session

/-! ## Closing -/

/-- The session once the scope is popped and the scopes it does not use are dead. -/
def pruned (s : Session) (d : Draft) (outer : List Draft) (u : BodyUse) : Session :=
  { s with stack := outer, closed := s.closed.retireAll (d.unused u) }

/-- The session with one more closed scope, or with the closed scope replaced. -/
def put (s : Session) (sc : Scope) : Session := { s with closed := s.closed.insert sc.id sc }

/-- The session once the scope is recorded as well. -/
def recorded (s : Session) (d : Draft) (outer : List Draft) (u : BodyUse) (sc : Scope)
    (freshLocal : LocalId) : Session :=
  { s.pruned d outer u with freshLocal }.put sc

theorem attach_of_nil {s : Session} (h : s.stack = []) (id : ScopeId) :
    s.attach id = { s with roots := s.roots ++ [id] } := by
  unfold attach
  rw [h]

theorem attach_of_cons {s : Session} {d : Draft} {outer : List Draft} (h : s.stack = d :: outer)
    (id : ScopeId) :
    s.attach id = { s with stack := { d with children := d.children ++ [id] } :: outer } := by
  unfold attach
  rw [h]

@[simp] theorem closed_attach (s : Session) (id : ScopeId) : (s.attach id).closed = s.closed := by
  unfold attach
  split <;> rfl

@[simp] theorem freshScope_attach (s : Session) (id : ScopeId) :
    (s.attach id).freshScope = s.freshScope := by
  unfold attach
  split <;> rfl

@[simp] theorem freshLocal_attach (s : Session) (id : ScopeId) :
    (s.attach id).freshLocal = s.freshLocal := by
  unfold attach
  split <;> rfl

/-- Attaching changes nothing in an open scope but the list of its children. -/
theorem mem_stack_attach {s : Session} {id : ScopeId} {d : Draft} (h : d ∈ (s.attach id).stack) :
    ∃ old ∈ s.stack, d = { old with children := d.children } := by
  cases hs : s.stack with
  | nil =>
    rw [attach_of_nil hs, hs] at h
    cases h
  | cons e outer =>
    rw [attach_of_cons hs] at h
    rcases List.mem_cons.mp h with rfl | h
    · exact ⟨e, List.mem_cons_self, rfl⟩
    · exact ⟨d, List.mem_cons_of_mem e h, rfl⟩

/-- The scan and the check of the requests succeed, and the environment has a layout: the scope is
now closed for good. -/
structure Accepts (s : Session) (body : Expr) (σ : Store) (d : Draft) (outer : List Draft)
    (u : BodyUse) (carried : Option Carried) (freshLocal : LocalId) (σ' : Store) : Prop where
  building : s.building = .ok (d, outer)
  uses : d.uses body = .ok u
  requested : d.checkRequested (d.gather s.closed u) = .ok ()
  carry : (carry (d.gather s.closed u) d.span s.freshLocal).run σ = (.ok (carried, freshLocal), σ')

/-- The ways in which closing ends. -/
inductive Closing (s : Session) (body : Expr) (eager : Bool) (σ : Store) :
    Except ConversionError Expr → Session → Store → Prop
  /-- No scope is open, or its parameters are still being declared. -/
  | refused {e : ConversionError} : s.building = .error e → Closing s body eager σ (.error e) s σ
  /-- A node of the body is not admitted. -/
  | rejected {d : Draft} {outer : List Draft} {b : Breach} :
      s.building = .ok (d, outer) → d.uses body = .error b →
      Closing s body eager σ (.error (.breach b)) { s with stack := outer } σ
  /-- Something captured was not requested. -/
  | unrequested {d : Draft} {outer : List Draft} {u : BodyUse} {b : Breach} :
      s.building = .ok (d, outer) → d.uses body = .ok u →
      d.checkRequested (d.gather s.closed u) = .error b →
      Closing s body eager σ (.error (.breach b)) (s.pruned d outer u) σ
  /-- The environment has no layout. -/
  | uncarried {d : Draft} {outer : List Draft} {u : BodyUse} {b : Breach} {σ' : Store} :
      s.building = .ok (d, outer) → d.uses body = .ok u →
      d.checkRequested (d.gather s.closed u) = .ok () →
      (carry (d.gather s.closed u) d.span s.freshLocal).run σ = (.error b, σ') →
      Closing s body eager σ (.error (.breach b)) (s.pruned d outer u) σ'
  /-- The scope does not compile; it stays recorded but belongs nowhere. -/
  | uncompiled {d : Draft} {outer : List Draft} {u : BodyUse} {freshLocal : LocalId}
      {e : ConversionError} {σ₁ σ' : Store} :
      s.Accepts body σ d outer u none freshLocal σ₁ → eager = true →
      (compileAlone (s.recorded d outer u (d.toScope body eager none) freshLocal).closed d.id).run
        σ₁ = (.error e, σ') →
      Closing s body eager σ (.error e)
        (s.recorded d outer u (d.toScope body eager none) freshLocal) σ'
  /-- The scope is recorded, compiled and attached. -/
  | compiled {d : Draft} {outer : List Draft} {u : BodyUse} {freshLocal : LocalId}
      {f : Option Closure} {σ₁ σ' : Store} :
      s.Accepts body σ d outer u none freshLocal σ₁ → eager = true →
      (compileAlone (s.recorded d outer u (d.toScope body eager none) freshLocal).closed d.id).run
        σ₁ = (.ok f, σ') →
      Closing s body eager σ (.ok { d.toScope body eager none with compiled := f }.token)
        (attach ((s.recorded d outer u (d.toScope body eager none) freshLocal).put
          { d.toScope body eager none with compiled := f }) d.id) σ'
  /-- The scope is recorded and attached. -/
  | deferred {d : Draft} {outer : List Draft} {u : BodyUse} {carried : Option Carried}
      {freshLocal : LocalId} {σ' : Store} :
      s.Accepts body σ d outer u carried freshLocal σ' → (eager && carried.isNone) = false →
      Closing s body eager σ (.ok (.placeholder d.id))
        (attach (s.recorded d outer u (d.toScope body eager carried) freshLocal) d.id) σ'

theorem close_eq_record {s : Session} {body : Expr} {σ σ' : Store} {d : Draft} {outer : List Draft}
    {u : BodyUse} {carried : Option Carried} {freshLocal : LocalId}
    (acc : s.Accepts body σ d outer u carried freshLocal σ') (eager : Bool) :
    s.close body eager σ =
      record { s.pruned d outer u with freshLocal } (d.toScope body eager carried) σ' := by
  unfold close
  simp only [acc.building, acc.uses, acc.requested, bind, StateT.bind]
  have hc := acc.carry
  unfold ExceptT.run at hc ⊢
  rw [hc]
  rfl

theorem record_of_not_compiled (s : Session) {sc : Scope} (h : (sc.eager && sc.isStatic) = false)
    (σ : Store) :
    s.record sc σ = ((.ok sc.token, (s.put sc).attach sc.id), σ) := by
  unfold record
  simp only [h]
  rfl

theorem record_of_compiled (s : Session) (sc : Scope) (h : (sc.eager && sc.isStatic) = true)
    {σ σ' : Store} {r : Except ConversionError (Option Closure)}
    (hk : (compileAlone (s.put sc).closed sc.id).run σ = (r, σ')) :
    s.record sc σ =
      match r with
      | .error e => ((.error e, s.put sc), σ')
      | .ok f =>
        ((.ok { sc with compiled := f }.token,
          ((s.put sc).put { sc with compiled := f }).attach sc.id), σ') := by
  have hk : compileAlone (s.closed.insert sc.id sc) sc.id σ = (r, σ') := hk
  unfold record ExceptT.run
  simp only [h, if_true, bind, StateT.bind]
  rw [hk]
  cases r <;> rfl

theorem closing_close (s : Session) (body : Expr) (eager : Bool) (σ : Store) :
    s.Closing body eager σ (s.close body eager σ).1.1 (s.close body eager σ).1.2
      (s.close body eager σ).2 := by
  cases hb : s.building with
  | error e =>
    have h : s.close body eager σ = ((.error e, s), σ) := by simp only [close, hb]; rfl
    exact h ▸ .refused hb
  | ok top =>
    obtain ⟨d, outer⟩ := top
    cases hu : d.uses body with
    | error b =>
      have h : s.close body eager σ = ((.error (.breach b), { s with stack := outer }), σ) := by
        simp only [close, hb, hu]
        rfl
      exact h ▸ .rejected hb hu
    | ok u =>
      cases hr : d.checkRequested (d.gather s.closed u) with
      | error b =>
        have h : s.close body eager σ = ((.error (.breach b), s.pruned d outer u), σ) := by
          simp only [close, hb, hu, hr]
          rfl
        exact h ▸ .unrequested hb hu hr
      | ok _ =>
        cases hc : (carry (d.gather s.closed u) d.span s.freshLocal).run σ with
        | mk r σ₁ =>
          cases r with
          | error b =>
            have h : s.close body eager σ = ((.error (.breach b), s.pruned d outer u), σ₁) := by
              simp only [close, hb, hu, hr, bind, StateT.bind]
              unfold ExceptT.run at hc ⊢
              rw [hc]
              rfl
            exact h ▸ .uncarried hb hu hr hc
          | ok p =>
            obtain ⟨carried, freshLocal⟩ := p
            have acc : s.Accepts body σ d outer u carried freshLocal σ₁ := ⟨hb, hu, hr, hc⟩
            rw [close_eq_record acc eager]
            cases he : eager && carried.isNone with
            | false =>
              rw [record_of_not_compiled _ he]
              exact .deferred acc he
            | true =>
              obtain ⟨rfl, hn⟩ := Bool.and_eq_true_iff.mp he
              obtain rfl := Option.isNone_iff_eq_none.mp hn
              cases hk : (compileAlone (s.recorded d outer u (d.toScope body true none)
                  freshLocal).closed d.id).run σ₁ with
              | mk r σ' =>
                rw [record_of_compiled { s.pruned d outer u with freshLocal }
                  (d.toScope body true none) rfl hk]
                cases r with
                | error e => exact .uncompiled acc rfl hk
                | ok f => exact .compiled acc rfl hk

/-- Nothing is closed while no body is being built. -/
theorem Closing.idle {s s' : Session} {body : Expr} {eager : Bool} {σ σ' : Store}
    {r : Except ConversionError Expr} (h : s.Closing body eager σ r s' σ')
    (hidle : ∀ d outer, s.building ≠ .ok (d, outer)) : s' = s ∧ σ' = σ := by
  cases h with
  | refused _ => exact ⟨rfl, rfl⟩
  | rejected hb _ => exact absurd hb (hidle _ _)
  | unrequested hb _ _ => exact absurd hb (hidle _ _)
  | uncarried hb _ _ _ => exact absurd hb (hidle _ _)
  | uncompiled acc _ _ => exact absurd acc.building (hidle _ _)
  | compiled acc _ _ => exact absurd acc.building (hidle _ _)
  | deferred acc _ => exact absurd acc.building (hidle _ _)

theorem exec_close (s : Session) (body : Expr) (eager : Bool) (σ : Store) :
    s.exec (.close body eager) σ =
      (((s.close body eager σ).1.1.map .expr, (s.close body eager σ).1.2),
        (s.close body eager σ).2) :=
  rfl

/-! ## The other commands -/

theorem building_eq_ok_iff {s : Session} {d : Draft} {outer : List Draft} :
    s.building = .ok (d, outer) ↔ s.stack = d :: outer ∧ d.building = true := by
  unfold building
  cases s.stack with
  | nil => simp
  | cons e rest =>
    by_cases h : e.building = true
    · simp only [h, if_true, Except.ok.injEq, Prod.mk.injEq, List.cons.injEq]
      grind
    · simp only [h, Bool.false_eq_true, if_false, reduceCtorEq, false_iff, List.cons.injEq]
      grind

theorem declaring_eq_ok_iff {s : Session} {d : Draft} {outer : List Draft} :
    s.declaring = .ok (d, outer) ↔ s.stack = d :: outer ∧ d.building = false := by
  unfold declaring
  cases s.stack with
  | nil => simp
  | cons e rest =>
    by_cases h : e.building = true
    · simp only [h, if_true, reduceCtorEq, false_iff, List.cons.injEq]
      grind
    · simp only [h, Bool.false_eq_true, if_false, Except.ok.injEq, Prod.mk.injEq, List.cons.injEq]
      grind

theorem enter_eq_ok {s : Session} {span : Span} {r : ScopeId × Session}
    (h : s.enter span = .ok r) :
    (∀ d ∈ s.stack.head?, d.building = true) ∧ r = (s.freshScope,
      { s with stack := { id := s.freshScope, span } :: s.stack, freshScope := s.freshScope + 1 }) := by
  unfold enter at h
  cases hs : s.stack with
  | nil =>
    simp only [hs, List.isEmpty_nil] at h
    cases h
    exact ⟨by simp, rfl⟩
  | cons d outer =>
    cases hb : s.building with
    | error e => simp [hs, hb, bind, Except.bind] at h
    | ok top =>
      obtain ⟨hs', hd⟩ := building_eq_ok_iff.mp hb
      obtain ⟨rfl, -⟩ : d = top.1 ∧ outer = top.2 := by simpa [hs] using hs'
      simp only [hs, hb, bind, Except.bind] at h
      cases h
      exact ⟨by simpa using hd, rfl⟩

/-- The parameter belongs to the innermost scope that declares the name, and is requested on the
scopes inside that one. -/
theorem resolve_eq_some {name : String} {stack stack' : List Draft} {p : Param} {owner : ScopeId}
    (h : resolve name stack = some (p, owner, stack')) :
    ∃ inner o outer, stack = inner ++ o :: outer ∧ (∀ d ∈ inner, d.param? name = none) ∧
      o.param? name = some p ∧ owner = o.id ∧
      stack' = inner.map (·.request (.loc p.id p.ty o.id)) ++ o :: outer := by
  induction stack generalizing stack' with
  | nil => cases h
  | cons d rest ih =>
    unfold resolve at h
    cases hd : d.param? name with
    | some q =>
      simp only [hd, Option.some.injEq, Prod.mk.injEq] at h
      obtain ⟨rfl, rfl, rfl⟩ := h
      exact ⟨[], d, rest, rfl, by simp, hd, rfl, rfl⟩
    | none =>
      simp only [hd, Option.map_eq_some_iff, Prod.exists, Prod.mk.injEq] at h
      obtain ⟨q, o', rest', hr, rfl, rfl, rfl⟩ := h
      obtain ⟨inner, o, outer, rfl, hi, ho, rfl, rfl⟩ := ih hr
      exact ⟨d :: inner, o, outer, rfl, List.forall_mem_cons.mpr ⟨hd, hi⟩, ho, rfl, rfl⟩

/-- What a command does: its answer, and the session and the store that it leaves. -/
inductive Step (s : Session) (σ : Store) :
    Command → Except ConversionError Answer → Session → Store → Prop
  /-- Only closing changes the session when it fails. -/
  | failed {c : Command} {e : ConversionError} :
      (∀ body eager, c ≠ .close body eager) → Step s σ c (.error e) s σ
  | entered {span : Span} :
      (∀ d ∈ s.stack.head?, d.building = true) →
      Step s σ (.enter span) (.ok (.scope s.freshScope))
        { s with stack := { id := s.freshScope, span } :: s.stack, freshScope := s.freshScope + 1 } σ
  | declared {d : Draft} {outer : List Draft} {ty : Ty} {name : String} {span : Span} :
      s.stack = d :: outer → d.building = false → d.param? name = none →
      Step s σ (.declare ty name span) (.ok (.expr (.loc s.freshLocal)))
        { s with
          stack := { d with params := d.params ++ [⟨s.freshLocal, name, ty, span⟩] } :: outer
          freshLocal := s.freshLocal + 1 } σ
  | begun {d : Draft} {outer : List Draft} :
      s.stack = d :: outer → d.building = false →
      Step s σ .begin (.ok .begun) { s with stack := { d with building := true } :: outer } σ
  | notFound {name : String} {d : Draft} {outer : List Draft} :
      s.building = .ok (d, outer) → Step s σ (.lookup name) (.ok .notFound) s σ
  | found {name : String} {d : Draft} {rest inner outer : List Draft} {o : Draft} {p : Param} :
      s.building = .ok (d, rest) → s.stack = inner ++ o :: outer →
      (∀ d ∈ inner, d.param? name = none) → o.param? name = some p →
      Step s σ (.lookup name) (.ok (.expr (.loc p.id)))
        { s with stack := inner.map (·.request (.loc p.id p.ty o.id)) ++ o :: outer } σ
  | argument {index : Nat} {ty : Ty} {d : Draft} {outer : List Draft} :
      s.building = .ok (d, outer) →
      Step s σ (.argument index ty) (.ok (.expr (.arg .args index ty)))
        { s with stack := s.stack.map (·.request (.argument index)) } σ
  | var {name : String} {ty : Ty} {d : Draft} {outer : List Draft} :
      s.building = .ok (d, outer) →
      Step s σ (.var name ty) (.ok (.expr (.var name ty)))
        { s with stack := s.stack.map (·.request (.var name ty)) } σ
  | closed {body : Expr} {eager : Bool} {r : Except ConversionError Expr} {s' : Session}
      {σ' : Store} :
      s.Closing body eager σ r s' σ' →
      Step s σ (.close body eager) (r.map .expr) s' σ'

theorem step_exec (s : Session) (c : Command) (σ : Store) :
    s.Step σ c (s.exec c σ).1.1 (s.exec c σ).1.2 (s.exec c σ).2 := by
  cases c with
  | enter span =>
    show s.Step σ _ (s.settle .scope (s.enter span)).1 (s.settle .scope (s.enter span)).2 σ
    cases he : s.enter span with
    | error e => exact .failed (by simp)
    | ok entered =>
      obtain ⟨hd, rfl⟩ := enter_eq_ok he
      exact .entered hd
  | declare ty name span =>
    show s.Step σ _ (s.settle _ (s.declare ty name span)).1
      (s.settle (.expr <| .loc ·) (s.declare ty name span)).2 σ
    unfold declare
    cases hd : s.declaring with
    | error e => exact .failed (by simp)
    | ok top =>
      obtain ⟨hs, hb⟩ := declaring_eq_ok_iff.mp hd
      simp only [bind, Except.bind]
      cases hp : top.1.param? name with
      | some first => exact .failed (by simp)
      | none => exact .declared hs hb hp
  | «begin» =>
    show s.Step σ _ (s.settle _ ((Unit.unit, ·) <$> s.begin)).1
      (s.settle (fun _ => .begun) ((Unit.unit, ·) <$> s.begin)).2 σ
    unfold «begin»
    cases hd : s.declaring with
    | error e => exact .failed (by simp)
    | ok top =>
      obtain ⟨hs, hb⟩ := declaring_eq_ok_iff.mp hd
      exact .begun hs hb
  | lookup name =>
    show s.Step σ _ (s.settle _ (s.lookup name)).1
      (s.settle (·.elim .notFound .expr) (s.lookup name)).2 σ
    unfold lookup
    cases hb : s.building with
    | error e => exact .failed (by simp)
    | ok top =>
      simp only [bind, Except.bind]
      cases hr : resolve name s.stack with
      | none => exact .notFound hb
      | some found =>
        obtain ⟨p, owner, stack⟩ := found
        obtain ⟨inner, o, outer, hs, hi, ho, -, rfl⟩ := resolve_eq_some hr
        exact .found hb hs hi ho
  | argument index ty =>
    show s.Step σ _ (s.settle .expr (s.argument index ty)).1
      (s.settle .expr (s.argument index ty)).2 σ
    unfold argument
    cases hb : s.building with
    | error e => exact .failed (by simp)
    | ok top => exact .argument hb
  | var name ty =>
    show s.Step σ _ (s.settle .expr (s.var name ty)).1 (s.settle .expr (s.var name ty)).2 σ
    unfold var
    cases hb : s.building with
    | error e => exact .failed (by simp)
    | ok top => exact .var hb
  | close body eager => exact .closed (closing_close s body eager σ)

/-! ## What happens to the session -/

/-- What carries an environment: nothing if it is empty, else a layout of its types and the next
free parameter. -/
def Carries (env : Env) (fresh : LocalId) : Option Carried → LocalId → Prop
  | none, fresh' => env.isEmpty = true ∧ fresh' = fresh
  | some c, fresh' => env.isEmpty = false ∧ c.env = env ∧ c.param.id = fresh ∧
      fresh' = fresh + 1 ∧ ∃ σ, ((Layout.ofTypes env.types).run σ).1 = .ok c.layout

theorem carries_of_carry {env : Env} {span : Span} {fresh fresh' : LocalId} {σ σ' : Store}
    {carried : Option Carried}
    (h : (carry env span fresh).run σ = (.ok (carried, fresh'), σ')) :
    Carries env fresh carried fresh' := by
  unfold carry at h
  by_cases he : env.isEmpty = true
  · rw [if_pos he] at h
    cases h
    exact ⟨he, rfl⟩
  · rw [if_neg he] at h
    cases hl : (Layout.ofTypes env.types).run σ with
    | mk r σ₁ =>
      simp only [ExceptT.run, bind, ExceptT.bind, ExceptT.mk, StateT.bind] at hl h
      rw [hl] at h
      cases r with
      | error b => cases h
      | ok layout =>
        cases h
        exact ⟨Bool.eq_false_iff.mpr he, rfl, rfl, rfl, σ, congrArg Prod.fst hl⟩

/-- The scope `d` is closed with a body that it admits and is recorded as `sc`. -/
structure Records (s : Session) (d : Draft) (outer : List Draft) (u : BodyUse) (sc : Scope)
    (s' : Session) : Prop where
  building : s.building = .ok (d, outer)
  uses : d.uses sc.body = .ok u
  requested : d.checkRequested (d.gather s.closed u) = .ok ()
  carries : Carries (d.gather s.closed u) s.freshLocal sc.carried s'.freshLocal
  id : sc.id = d.id
  params : sc.params = d.params
  children : sc.children = d.children
  alive : sc.alive = true
  get? : ∀ k, s'.closed.get? k =
    if d.id = k then some sc else (s.closed.retireAll (d.unused u)).get? k
  stack : s'.stack = outer
  roots : s'.roots = s.roots
  freshScope : s'.freshScope = s.freshScope

namespace Records

variable {s s' : Session} {d : Draft} {outer : List Draft} {u : BodyUse} {sc : Scope}

theorem stack_eq (r : s.Records d outer u sc s') : s.stack = d :: outer :=
  (building_eq_ok_iff.mp r.building).1

theorem get?_self (r : s.Records d outer u sc s') : s'.closed.get? d.id = some sc :=
  (r.get? d.id).trans (if_pos rfl)

/-- A closed scope is the recorded one, or it was closed before and at most its flag is new. -/
theorem closed_cases (r : s.Records d outer u sc s') {id : ScopeId} {x : Scope}
    (h : s'.closed.get? id = some x) :
    id = d.id ∧ x = sc ∨ d.id ≠ id ∧ ∃ old, s.closed.get? id = some old ∧
      x = { old with alive := x.alive } := by
  rw [r.get? id] at h
  split at h
  · next e => exact .inl ⟨e.symm, (Option.some.inj h).symm⟩
  · next e => exact .inr ⟨e, ScopeTable.get?_of_retireAll h⟩

end Records

/-- The value asked for exists: it is a parameter of the scope around those that are asked, or an
input, which all scopes are asked for. -/
inductive Grounded (outer : List Draft) : Request → Prop
  | loc {o : Draft} {p : Param} : outer.head? = some o → p ∈ o.params →
      Grounded outer (.loc p.id p.ty o.id)
  | argument (index : Nat) : outer = [] → Grounded outer (.argument index)
  | var (name : String) (ty : Ty) : outer = [] → Grounded outer (.var name ty)

/-- What a command does to the session. -/
inductive Effect (s : Session) : Session → Prop
  | none : Effect s s
  | enter (span : Span) : Effect s
      { s with stack := { id := s.freshScope, span } :: s.stack, freshScope := s.freshScope + 1 }
  | declare {d : Draft} {outer : List Draft} {p : Param} :
      s.stack = d :: outer → p.id = s.freshLocal →
      Effect s { s with
        stack := { d with params := d.params ++ [p] } :: outer, freshLocal := s.freshLocal + 1 }
  | begin {d : Draft} {outer : List Draft} :
      s.stack = d :: outer →
      Effect s { s with stack := { d with building := true } :: outer }
  | request {inner outer : List Draft} {r : Request} :
      s.stack = inner ++ outer → Grounded outer r →
      Effect s { s with stack := inner.map (·.request r) ++ outer }
  /-- The scope is gone for good. -/
  | pop {d : Draft} {outer : List Draft} :
      s.stack = d :: outer → Effect s { s with stack := outer }
  | prune {d : Draft} {outer : List Draft} {body : Expr} {u : BodyUse} :
      s.stack = d :: outer → d.uses body = .ok u → Effect s (s.pruned d outer u)
  /-- The scope is recorded, but no other refers to it. -/
  | abandon {d : Draft} {outer : List Draft} {u : BodyUse} {sc : Scope} {s' : Session} :
      s.Records d outer u sc s' → Effect s s'
  | attach {d : Draft} {outer : List Draft} {u : BodyUse} {sc : Scope} {s' : Session} :
      s.Records d outer u sc s' → Effect s (s'.attach d.id)

theorem Accepts.records {s : Session} {body : Expr} {σ σ' : Store} {d : Draft} {outer : List Draft}
    {u : BodyUse} {carried : Option Carried} {freshLocal : LocalId}
    (acc : s.Accepts body σ d outer u carried freshLocal σ') (eager : Bool) :
    s.Records d outer u (d.toScope body eager carried)
      (s.recorded d outer u (d.toScope body eager carried) freshLocal) where
  building := acc.building
  uses := acc.uses
  requested := acc.requested
  carries := carries_of_carry acc.carry
  id := rfl
  params := rfl
  children := rfl
  alive := rfl
  get? := (ScopeTable.get?_insert _ d.id · _)
  stack := rfl
  roots := rfl
  freshScope := rfl

/-- The scope can be replaced by one with a function. -/
theorem Records.compile {s s' : Session} {d : Draft} {outer : List Draft} {u : BodyUse} {sc : Scope}
    (h : s.Records d outer u sc s') (f : Option Closure) :
    s.Records d outer u { sc with compiled := f } (s'.put { sc with compiled := f }) where
  building := h.building
  uses := h.uses
  requested := h.requested
  carries := h.carries
  id := h.id
  params := h.params
  children := h.children
  alive := h.alive
  get? k := by
    unfold put
    rw [ScopeTable.get?_insert, h.get? k, h.id]
    split <;> rfl
  stack := h.stack
  roots := h.roots
  freshScope := h.freshScope

theorem effect_of_closing {s s' : Session} {body : Expr} {eager : Bool} {σ σ' : Store}
    {r : Except ConversionError Expr} (h : s.Closing body eager σ r s' σ') : s.Effect s' := by
  cases h with
  | refused _ => exact .none
  | rejected hb _ => exact .pop (building_eq_ok_iff.mp hb).1
  | unrequested hb hu _ => exact .prune (building_eq_ok_iff.mp hb).1 hu
  | uncarried hb hu _ _ => exact .prune (building_eq_ok_iff.mp hb).1 hu
  | uncompiled acc _ _ => exact .abandon (acc.records eager)
  | compiled acc _ _ => exact .attach ((acc.records eager).compile _)
  | deferred acc _ => exact .attach (acc.records eager)

theorem Effect.requestAll (s : Session) {r : Request} (h : Grounded [] r) :
    s.Effect { s with stack := s.stack.map (·.request r) } := by
  have e := Effect.request (List.append_nil s.stack).symm h
  rwa [List.append_nil] at e

theorem effect_of_step {s s' : Session} {σ σ' : Store} {c : Command}
    {a : Except ConversionError Answer} (h : s.Step σ c a s' σ') : s.Effect s' := by
  cases h with
  | failed _ => exact .none
  | entered _ => exact .enter _
  | declared hs _ _ => exact .declare hs rfl
  | begun hs _ => exact .begin hs
  | notFound _ => exact .none
  | found _ hs _ ho => exact .request hs (.loc rfl (List.mem_of_find?_eq_some ho))
  | argument _ => exact .requestAll s (.argument _ rfl)
  | var _ => exact .requestAll s (.var _ _ rfl)
  | closed h => exact effect_of_closing h

/-! ## Runs -/

/-- The sessions that commands lead to from a new one, whatever happens to the store meanwhile. -/
inductive Reachable : Session → Prop
  | new : Reachable {}
  | exec {s : Session} (h : Reachable s) (c : Command) (σ : Store) : Reachable (s.exec c σ).1.2

theorem Reachable.run {s : Session} (h : Reachable s) (cs : List Command) (σ : Store) :
    Reachable (s.run cs σ).1.2 := by
  induction cs generalizing s σ with
  | nil => exact h
  | cons c cs ih => exact ih (h.exec c σ) (s.exec c σ).2

theorem run_cons (s : Session) (c : Command) (cs : List Command) (σ : Store) :
    s.run (c :: cs) σ =
      (((s.exec c σ).1.1 :: ((s.exec c σ).1.2.run cs (s.exec c σ).2).1.1,
        ((s.exec c σ).1.2.run cs (s.exec c σ).2).1.2),
        ((s.exec c σ).1.2.run cs (s.exec c σ).2).2) :=
  rfl

theorem run_append (s : Session) (cs ds : List Command) (σ : Store) :
    s.run (cs ++ ds) σ =
      (((s.run cs σ).1.1 ++ ((s.run cs σ).1.2.run ds (s.run cs σ).2).1.1,
        ((s.run cs σ).1.2.run ds (s.run cs σ).2).1.2),
        ((s.run cs σ).1.2.run ds (s.run cs σ).2).2) := by
  induction cs generalizing s σ with
  | nil => rfl
  | cons c cs ih => rw [List.cons_append, run_cons, ih, run_cons, List.cons_append]

/-- What holds of a new session and is kept by every effect holds of every session. -/
theorem Reachable.induction {P : Session → Prop} (new : P {})
    (effect : ∀ s s', Effect s s' → P s → P s') {s : Session} (h : Reachable s) : P s := by
  induction h with
  | new => exact new
  | exec _ c σ ih => exact effect _ _ (effect_of_step (step_exec _ c σ)) ih

end Session

end ClosureConversion
