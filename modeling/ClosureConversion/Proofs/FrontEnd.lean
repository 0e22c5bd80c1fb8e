import ClosureConversion.Proofs.Layouts
import ClosureConversion.Proofs.Requests

/-!
Front ends that keep to the protocol.

A front end builds bodies from literals, operators and calls, and from the expressions that the
session gave it while the scope was the current one: `FrontBody`.  `FrontEnd` is a run in which it
does so; commands may fail on the way.

What a scope was given fits it for as long as it is open, and every closed body holds only
expressions that fit the scope it belongs to: `Known.step`.
-/

namespace ClosureConversion

/-! ## Bodies -/

/-- Literals, operators, conditionals and calls. -/
def Term.isPlain {φ : Type} : Term φ → Bool
  | .void | .bool _ | .int _ | .number _ | .string _ => true
  | .binary .. | .unary .. | .compare .. | .logical .. | .cond .. | .call .. => true
  | _ => false

/-- Plain nodes over expressions that are given. -/
inductive FrontBody (given : Expr → Prop) : Expr → Prop
  | given {e : Expr} : given e → FrontBody given e
  | plain {e : Expr} : e.isPlain = true → (∀ c ∈ e.children, FrontBody given c) → FrontBody given e

namespace FrontBody

variable {given given' : Expr → Prop} {body : Expr}

theorem binary {op : BinaryOp} {l r : Expr} (hl : FrontBody given l) (hr : FrontBody given r) :
    FrontBody given (.binary op l r) :=
  .plain rfl (List.forall_mem_cons.mpr ⟨hl, List.forall_mem_singleton.mpr hr⟩)

/-- Only the given expressions that occur in the body matter. -/
theorem imp (h : FrontBody given body) (hi : ∀ e, given e → e ∈ body.nodes → given' e) :
    FrontBody given' body := by
  induction h with
  | given h => exact .given (hi _ h (Term.self_mem_nodes _))
  | @plain e hp _ ih =>
    refine .plain hp fun c hc => ih c hc fun x hx hm => hi x hx ?_
    exact (Term.mem_nodes e x).mpr (.inr ⟨c, hc, hm⟩)

/-- A node of the body is plain or belongs to an expression that was given. -/
theorem mem_nodes (h : FrontBody given body) {n : Expr} (hn : n ∈ body.nodes) :
    n.isPlain = true ∨ ∃ e, given e ∧ e ∈ body.nodes ∧ n ∈ e.nodes := by
  induction h with
  | @given e h => exact .inr ⟨e, h, Term.self_mem_nodes e, hn⟩
  | @plain e hp _ ih =>
    rcases (Term.mem_nodes e n).mp hn with rfl | ⟨c, hc, hn⟩
    · exact .inl hp
    · rcases ih c hc hn with h | ⟨x, hx, hm, hn⟩
      · exact .inl h
      · exact .inr ⟨x, hx, (Term.mem_nodes e x).mpr (.inr ⟨c, hc, hm⟩), hn⟩

end FrontBody

theorem Term.capture?_of_isPlain {φ : Type} {n : Term φ} (h : n.isPlain = true) :
    n.capture? = none := by
  cases n <;> simp_all [isPlain, capture?]

theorem Term.scopeToken?_of_isPlain {φ : Type} {n : Term φ} (h : n.isPlain = true) :
    n.scopeToken? = none := by
  cases n <;> simp_all [isPlain, scopeToken?]

/-! ## Runs -/

/-- The expression fits a scope with these parameters, captures and children; `vars` tells at which
types a variable may be read. -/
inductive Offered (vars : String → Ty → Prop) (t : ScopeTable) (params : List Param) (env : Env)
    (children : List ScopeId) : Expr → Prop
  | own {p : Param} : p ∈ params → Offered vars t params env children (.loc p.id)
  | captured {v : LocalId} :
      env.contains (.loc v) = true → Offered vars t params env children (.loc v)
  | argument {i : Nat} {ty : Ty} :
      env.contains .args = true → i ∈ env.indices →
      Offered vars t params env children (.arg .args i ty)
  | var {name : String} {ty : Ty} :
      env.contains (.var name) = true → vars name ty →
      Offered vars t params env children (.var name ty)
  | deferred {c : ScopeId} {sc : Scope} :
      c ∈ children → t.get? c = some sc → sc.compiled = none →
      Offered vars t params env children (.placeholder c)
  | compiled {c : ScopeId} {sc : Scope} {f : Closure} :
      c ∈ children → t.get? c = some sc → sc.compiled = some f →
      Offered vars t params env children (.delegate c f)

/-- Every function that a lambda was compiled to, and the lambda, have labels that are in use. -/
def Store.Valid (σ : Store) : Prop :=
  ∀ p ∈ σ.functions, p.1 < σ.nextLabel ∧ p.2.label < σ.nextLabel

theorem Store.valid_empty : Store.Valid {} := by simp [Store.Valid]

namespace Session

/-- The expression that a command answered, with the scope that is the current one then.  The id of
a new parameter is not an expression to be used: the body begins later. -/
def credit (c : Command) (a : Except ConversionError Answer) (s' : Session) :
    List (ScopeId × Expr) :=
  match c, a, s'.current? with
  | .declare .., _, _ => []
  | _, .ok (.expr e), some id => [(id, e)]
  | _, _, _ => []

/-- A variable is read at a type that it may be read at, and a scope is closed with a body over what
it was given. -/
def Obeys (vars : String → Ty → Prop) (s : Session) (offers : List (ScopeId × Expr)) :
    Command → Prop
  | .var name ty => vars name ty
  | .close body _ => ∀ d ∈ s.stack.head?, FrontBody (fun e => (d.id, e) ∈ offers) body
  | _ => True

/-- The session, the store and the offers after some run of a front end that keeps to the
protocol. -/
inductive FrontEnd (vars : String → Ty → Prop) :
    Session → Store → List (ScopeId × Expr) → Prop
  | new {σ : Store} : σ.Valid → FrontEnd vars {} σ []
  | exec {s : Session} {σ : Store} {offers : List (ScopeId × Expr)} (c : Command) :
      FrontEnd vars s σ offers → s.Obeys vars offers c →
      FrontEnd vars (s.exec c σ).1.2 (s.exec c σ).2
        (offers ++ credit c (s.exec c σ).1.1 (s.exec c σ).1.2)

/-- The offers after a list of commands. -/
def offersRun (s : Session) (σ : Store) (offers : List (ScopeId × Expr)) :
    List Command → List (ScopeId × Expr)
  | [] => offers
  | c :: cs =>
    (s.exec c σ).1.2.offersRun (s.exec c σ).2
      (offers ++ credit c (s.exec c σ).1.1 (s.exec c σ).1.2) cs

/-- Commands that keep to the protocol whenever their turn comes. -/
theorem FrontEnd.run {vars : String → Ty → Prop} {s : Session} {σ : Store}
    {offers : List (ScopeId × Expr)} (h : FrontEnd vars s σ offers) {cs : List Command}
    (ho : ∀ c ∈ cs, ∀ s offers, Obeys vars s offers c) :
    FrontEnd vars (s.run cs σ).1.2 (s.run cs σ).2 (s.offersRun σ offers cs) := by
  induction cs generalizing s σ offers with
  | nil => exact h
  | cons c cs ih =>
    rw [List.forall_mem_cons] at ho
    exact ih (h.exec c (ho.1 s offers)) ho.2

/-- One more command that keeps to the protocol. -/
theorem FrontEnd.run_concat {vars : String → Ty → Prop} {s : Session} {σ : Store}
    {offers : List (ScopeId × Expr)} {cs : List Command}
    (h : FrontEnd vars (s.run cs σ).1.2 (s.run cs σ).2 offers) (c : Command)
    (ho : (s.run cs σ).1.2.Obeys vars offers c) :
    FrontEnd vars (s.run (cs ++ [c]) σ).1.2 (s.run (cs ++ [c]) σ).2
      (offers ++ credit c ((s.run cs σ).1.2.exec c (s.run cs σ).2).1.1
        ((s.run cs σ).1.2.exec c (s.run cs σ).2).1.2) := by
  rw [run_append]
  exact h.exec c ho

/-- A scope may be closed with a body over what it was given. -/
theorem obeys_close {vars : String → Ty → Prop} {s : Session} {offers : List (ScopeId × Expr)}
    {body : Expr} {eager : Bool} (id : ScopeId) (hid : s.current? = some id)
    (h : FrontBody (fun e => (id, e) ∈ offers) body) : s.Obeys vars offers (.close body eager) := by
  intro d hd
  have hd : s.stack.head? = some d := hd
  obtain rfl : d.id = id := by simpa [current?, hd] using hid
  exact h

/-- A test whether two expressions are the same local, the same read of an argument, the same variable
or the same token. -/
def sameLeaf : Expr → Expr → Bool
  | .loc v, .loc w => v == w
  | .arg .args i ty, .arg .args j ty' => i == j && ty == ty'
  | .var name ty, .var name' ty' => name == name' && ty == ty'
  | .placeholder c, .placeholder d => c == d
  | _, _ => false

theorem eq_of_sameLeaf {e e' : Expr} (h : sameLeaf e e' = true) : e = e' := by
  unfold sameLeaf at h
  split at h
  · rw [beq_iff_eq.mp h]
  · obtain ⟨hindex, hty⟩ := Bool.and_eq_true_iff.mp h
    rw [beq_iff_eq.mp hindex, beq_iff_eq.mp hty]
  · obtain ⟨hname, hty⟩ := Bool.and_eq_true_iff.mp h
    rw [beq_iff_eq.mp hname, beq_iff_eq.mp hty]
  · rw [beq_iff_eq.mp h]
  · cases h

/-- An offer that is found among the offers by the test. -/
theorem mem_offers {offers : List (ScopeId × Expr)} {id : ScopeId} {e : Expr}
    (h : offers.any (fun p => p.1 == id && sameLeaf p.2 e) = true) : (id, e) ∈ offers := by
  simp only [List.any_eq_true, Bool.and_eq_true, beq_iff_eq] at h
  obtain ⟨⟨_, x⟩, hmem, rfl, hx⟩ := h
  obtain rfl := eq_of_sameLeaf hx
  exact hmem

/-! ## What a scope was given stays good -/

/-- The second draft is the first one at a later time. -/
structure Later (d e : Draft) : Prop where
  id : e.id = d.id
  params : ∀ p ∈ d.params, p ∈ e.params
  contains : ∀ v, d.requested.contains v = true → e.requested.contains v = true
  indices : ∀ i ∈ d.requested.indices, i ∈ e.requested.indices
  children : ∀ c ∈ d.children, c ∈ e.children

namespace Later

theorem refl (d : Draft) : Later d d :=
  ⟨rfl, fun _ h => h, fun _ h => h, fun _ h => h, fun _ h => h⟩

theorem request (d : Draft) (r : Request) : Later d (d.request r) where
  id := rfl
  params _ h := h
  contains _ h := (Env.contains_request _ _ _).mpr (.inl h)
  indices _ h := Env.mem_indices_request h r
  children _ h := h

end Later

variable {around : ScopeId → List ScopeId} {s s' : Session}

/-- An open scope was open before, or is the one that was just opened. -/
theorem later_of_effect (e : s.Effect s') {d' : Draft} (h : d' ∈ s'.stack) :
    (∃ d ∈ s.stack, Later d d') ∨ d'.id = s.freshScope := by
  have head : ∀ (e : Draft) {d : Draft} {outer : List Draft}, s.stack = d :: outer → Later d e →
      d' ∈ e :: outer → ∃ d ∈ s.stack, Later d d' := by
    intro e d outer hs hl hmem
    rw [hs]
    rcases List.mem_cons.mp hmem with rfl | hmem
    · exact ⟨d, List.mem_cons_self, hl⟩
    · exact ⟨d', List.mem_cons_of_mem d hmem, .refl d'⟩
  have tail : ∀ {d : Draft} {outer : List Draft}, s.stack = d :: outer → d' ∈ outer →
      ∃ d ∈ s.stack, Later d d' := by
    intro d outer hs hmem
    exact ⟨d', hs ▸ List.mem_cons_of_mem d hmem, .refl d'⟩
  cases e with
  | none => exact .inl ⟨d', h, .refl d'⟩
  | enter span =>
    rcases List.mem_cons.mp h with rfl | h
    · exact .inr rfl
    · exact .inl ⟨d', h, .refl d'⟩
  | @declare d outer p hs _ =>
    refine .inl (head { d with params := d.params ++ [p] } hs ?_ h)
    exact ⟨rfl, fun _ hp => List.mem_append_left _ hp, fun _ h => h, fun _ h => h, fun _ h => h⟩
  | @begin d outer hs =>
    refine .inl (head { d with building := true } hs ?_ h)
    exact ⟨rfl, fun _ h => h, fun _ h => h, fun _ h => h, fun _ h => h⟩
  | @request inner outer r hs _ =>
    rw [hs]
    rcases List.mem_append.mp h with h | h
    · obtain ⟨d, hd, rfl⟩ := List.mem_map.mp h
      exact .inl ⟨d, List.mem_append_left outer hd, .request d r⟩
    · exact .inl ⟨d', List.mem_append_right inner h, .refl d'⟩
  | pop hs => exact .inl (tail hs h)
  | prune hs _ => exact .inl (tail hs h)
  | abandon r => exact .inl (tail r.stack_eq (r.stack ▸ h))
  | @attach d outer u sc s₁ r =>
    cases ho : outer with
    | nil =>
      rw [attach_of_nil (r.stack.trans ho)] at h
      exact .inl (tail r.stack_eq (r.stack ▸ h))
    | cons o rest =>
      rw [attach_of_cons (r.stack.trans ho)] at h
      have hs := r.stack_eq.trans (congrArg _ ho)
      rw [hs]
      rcases List.mem_cons.mp h with rfl | h
      · refine .inl ⟨o, by simp, rfl, fun _ h => h, fun _ h => h, fun _ h => h, fun c hc => ?_⟩
        exact List.mem_append_left _ hc
      · exact .inl ⟨d', by simp [h], .refl d'⟩

/-- A closed scope stays; at most it dies. -/
theorem kept_of_effect (hn : s.Nested around) (e : s.Effect s') {c : ScopeId} {sc : Scope}
    (h : s.closed.get? c = some sc) :
    ∃ alive, s'.closed.get? c = some { sc with alive := alive } := by
  have recorded : ∀ {d : Draft} {outer : List Draft} {u : BodyUse} {x : Scope} {s₁ : Session},
      s.Records d outer u x s₁ →
      ∃ alive, s₁.closed.get? c = some { sc with alive := alive } := by
    intro d outer u x s₁ r
    have hne := (hn.of_cons r.stack_eq).open_ne_closed List.mem_cons_self h
    rw [r.get? c, if_neg hne]
    exact ScopeTable.get?_retireAll_of_get? _ h
  cases e with
  | prune _ _ => exact ScopeTable.get?_retireAll_of_get? _ h
  | abandon r => exact recorded r
  | attach r =>
    rw [closed_attach]
    exact recorded r
  | _ => exact ⟨sc.alive, h⟩

/-- The scopes on the stack have different ids. -/
theorem Nested.eq_head (hn : s.Nested around) {d e : Draft} {outer : List Draft}
    (hs : s.stack = d :: outer) (he : e ∈ s.stack) (hid : e.id = d.id) : e = d := by
  rw [hs] at he
  rcases List.mem_cons.mp he with rfl | he
  · rfl
  · have hlt := (hn.of_cons hs).nests.2.1 e.id
      (List.mem_map_of_mem (f := Prod.fst) (List.mem_map_of_mem he))
    exact absurd hid (Nat.ne_of_lt hlt)

theorem freshScope_le_of_effect (e : s.Effect s') : s.freshScope ≤ s'.freshScope := by
  cases e with
  | enter span => exact Nat.le_succ _
  | abandon r => exact Nat.le_of_eq r.freshScope.symm
  | attach r =>
    rw [freshScope_attach]
    exact Nat.le_of_eq r.freshScope.symm
  | _ => exact Nat.le_refl _

end Session

namespace Offered

variable {t t' : ScopeTable} {params params' : List Param} {env env' : Env}
  {children children' : List ScopeId} {e : Expr} {vars : String → Ty → Prop}

theorem mono (h : Offered vars t params env children e)
    (hp : ∀ p ∈ params, p ∈ params') (hv : ∀ v, env.contains v = true → env'.contains v = true)
    (hi : ∀ i ∈ env.indices, i ∈ env'.indices) (hc : ∀ c ∈ children, c ∈ children')
    (ht : ∀ c sc, t.get? c = some sc → ∃ alive, t'.get? c = some { sc with alive := alive }) :
    Offered vars t' params' env' children' e := by
  cases h with
  | own h => exact .own (hp _ h)
  | captured h => exact .captured (hv _ h)
  | argument h i => exact .argument (hv _ h) (hi _ i)
  | var h hty => exact .var (hv _ h) hty
  | deferred h hg hn =>
    obtain ⟨alive, hg⟩ := ht _ _ hg
    exact .deferred (hc _ h) hg hn
  | compiled h hg hf =>
    obtain ⟨alive, hg⟩ := ht _ _ hg
    exact .compiled (hc _ h) hg hf

theorem token {sc : Scope} (hc : sc.id ∈ children) (hg : t.get? sc.id = some sc) :
    Offered vars t params env children sc.token := by
  unfold Scope.token
  cases hf : sc.compiled with
  | none => exact .deferred hc hg hf
  | some f => exact .compiled hc hg hf

/-- What was offered and occurs in the body is among what the closed scope captures. -/
theorem balanced {sc : Scope} (h : Offered vars t sc.params env sc.children e) (hb : Balanced t' sc)
    (he : e ∈ sc.body.nodes)
    (ht : ∀ c sc, t.get? c = some sc → ∃ alive, t'.get? c = some { sc with alive := alive }) :
    Offered vars t' sc.params sc.env sc.children e := by
  cases h with
  | own h => exact .own h
  | @captured v h =>
    by_cases hd : Declares sc.params (.loc v)
    · obtain ⟨p, hp, e⟩ := hd
      cases e
      exact .own hp
    · exact .captured ((hb.contains _).mpr ⟨hd, .inl ⟨_, he, rfl⟩⟩)
  | @argument i ty h hi =>
    have hread : sc.body.ReadsIndex i := ⟨ty, he⟩
    refine .argument ((hb.contains _).mpr ⟨by simp [Declares], .inl hread.args⟩) ?_
    exact (hb.indices i).mpr (.inl hread)
  | var h hty =>
    exact .var ((hb.contains _).mpr ⟨by simp [Declares], .inl ⟨_, he, rfl⟩⟩) hty
  | deferred h hg hn =>
    obtain ⟨alive, hg⟩ := ht _ _ hg
    exact .deferred h hg hn
  | compiled h hg hf =>
    obtain ⟨alive, hg⟩ := ht _ _ hg
    exact .compiled h hg hf

end Offered

namespace Session

/-- Offers are to scopes that exist, fit those that are open, and all closed bodies hold only
expressions that fit. -/
structure Supplied (vars : String → Ty → Prop) (offers : List (ScopeId × Expr))
    (s : Session) : Prop where
  fresh : ∀ p ∈ offers, p.1 < s.freshScope
  offered : ∀ d ∈ s.stack, ∀ e, (d.id, e) ∈ offers →
    Offered vars s.closed d.params d.requested d.children e
  bodies : ∀ id sc, s.closed.get? id = some sc →
    FrontBody (Offered vars s.closed sc.params sc.env sc.children) sc.body

variable {around : ScopeId → List ScopeId} {vars : String → Ty → Prop}
  {offers : List (ScopeId × Expr)} {s s' : Session} {σ σ' : Store}

/-- The credit is the answer, to the scope that is the innermost one afterwards. -/
theorem mem_credit {c : Command} {a : Except ConversionError Answer} {id : ScopeId} {e : Expr}
    (h : (id, e) ∈ credit c a s') :
    (∀ ty name span, c ≠ .declare ty name span) ∧ a = .ok (.expr e) ∧
      ∃ d outer, s'.stack = d :: outer ∧ d.id = id := by
  unfold credit at h
  split at h
  · cases h
  · next hc hcur =>
    cases List.mem_singleton.mp h
    refine ⟨hc, rfl, ?_⟩
    unfold current? at hcur
    cases hs : s'.stack with
    | nil => simp [hs] at hcur
    | cons d outer => exact ⟨d, outer, rfl, by simpa [hs] using hcur⟩
  · cases h

/-- The token of a scope that was attached fits the scope around it. -/
theorem offered_attach {s₁ : Session} {d e : Draft} {outer rest : List Draft} {u : BodyUse}
    {sc : Scope} (r : s.Records d outer u sc s₁) (hs : (s₁.attach d.id).stack = e :: rest) :
    Offered vars (s₁.attach d.id).closed e.params e.requested e.children sc.token := by
  have hmem : d.id ∈ e.children := by
    cases ho : s₁.stack with
    | nil =>
      rw [attach_of_nil ho, ho] at hs
      cases hs
    | cons o outer =>
      rw [attach_of_cons ho] at hs
      cases hs
      simp
  rw [closed_attach]
  exact .token (r.id ▸ hmem) (r.id.symm ▸ r.get?_self)

/-- What a command answers fits the scope that it is for. -/
theorem offered_of_credit {c : Command} {a : Except ConversionError Answer}
    (h : s.Step σ c a s' σ') (ho : s.Obeys vars offers c) {d : Draft} {outer : List Draft}
    (hs : s'.stack = d :: outer) {e : Expr} (he : (d.id, e) ∈ credit c a s') :
    Offered vars s'.closed d.params d.requested d.children e := by
  obtain ⟨hc, ha, -⟩ := mem_credit he
  cases h with
  | declared _ _ _ => exact absurd rfl (hc _ _ _)
  | @found name _ _ inner outer' o p hb _ _ hp =>
    cases ha
    cases inner with
    | nil =>
      cases hs
      exact .own (List.mem_of_find?_eq_some hp)
    | cons i inner =>
      cases hs
      exact .captured ((Env.contains_request _ _ _).mpr (.inr rfl))
  | @argument i ty _ _ hb =>
    cases ha
    obtain ⟨hst, -⟩ := building_eq_ok_iff.mp hb
    rw [hst] at hs
    cases hs
    refine .argument ((Env.contains_request _ _ _).mpr (.inr rfl)) ?_
    show i ∈ (Env.request _ _).indices
    rw [Env.indices_request]
    exact (SortedSet.mem_insert _ _ _).mpr (.inl rfl)
  | var hb =>
    cases ha
    obtain ⟨hst, -⟩ := building_eq_ok_iff.mp hb
    rw [hst] at hs
    cases hs
    exact .var ((Env.contains_request _ _ _).mpr (.inr rfl)) ho
  | closed h =>
    cases h with
    | compiled acc _ _ =>
      cases ha
      exact offered_attach ((acc.records _).compile _) hs
    | deferred acc _ =>
      cases ha
      exact offered_attach (acc.records _) hs
    | _ => cases ha
  | _ => cases ha

/-- A scope that is closed after a command was closed before, or the command closed it. -/
theorem closed_of_step {c : Command} {a : Except ConversionError Answer}
    (h : s.Step σ c a s' σ') :
    (∀ id sc, s'.closed.get? id = some sc →
      ∃ old, s.closed.get? id = some old ∧ sc = { old with alive := sc.alive }) ∨
    ∃ d outer u sc s₁ eager, c = .close sc.body eager ∧ s.Records d outer u sc s₁ ∧
      s'.closed = s₁.closed := by
  have same : s'.closed = s.closed → ∀ id sc, s'.closed.get? id = some sc →
      ∃ old, s.closed.get? id = some old ∧ sc = { old with alive := sc.alive } := by
    intro he id sc hsc
    exact ⟨sc, he ▸ hsc, rfl⟩
  cases h with
  | closed h =>
    cases h with
    | refused _ => exact .inl (same rfl)
    | rejected _ _ => exact .inl (same rfl)
    | unrequested _ _ _ => exact .inl fun _ _ => ScopeTable.get?_of_retireAll
    | uncarried _ _ _ _ => exact .inl fun _ _ => ScopeTable.get?_of_retireAll
    | uncompiled acc _ _ => exact .inr ⟨_, _, _, _, _, _, rfl, acc.records _, rfl⟩
    | compiled acc _ _ =>
      exact .inr ⟨_, _, _, _, _, _, rfl, (acc.records _).compile _, closed_attach _ _⟩
    | deferred acc _ => exact .inr ⟨_, _, _, _, _, _, rfl, acc.records _, closed_attach _ _⟩
  | _ => exact .inl (same rfl)

namespace Supplied

theorem new : Supplied vars [] {} where
  fresh := by simp
  offered := by simp
  bodies := by simp

/-- A body that fitted still fits. -/
theorem frontBody_mono {t t' : ScopeTable} {sc : Scope}
    (h : FrontBody (Offered vars t sc.params sc.env sc.children) sc.body)
    (ht : ∀ c sc, t.get? c = some sc → ∃ alive, t'.get? c = some { sc with alive := alive }) :
    FrontBody (Offered vars t' sc.params sc.env sc.children) sc.body :=
  h.imp fun _ he _ => he.mono (fun _ h => h) (fun _ h => h) (fun _ h => h) (fun _ h => h) ht

section

variable {decl : LocalId → Option (ScopeId × Ty)} (h : s.Supplied vars offers)
  (hn : s.Nested around) (hd : s.Declared decl) (hc : s.Captured around decl)

include h hn

/-- What an open scope was given still fits it. -/
theorem offered_of_effect (e : s.Effect s') {d : Draft} (hmem : d ∈ s'.stack) {x : Expr}
    (hx : (d.id, x) ∈ offers) : Offered vars s'.closed d.params d.requested d.children x := by
  rcases later_of_effect e hmem with ⟨old, hold, hl⟩ | hid
  · have hof := h.offered old hold x (hl.id ▸ hx)
    exact hof.mono hl.params hl.contains hl.indices hl.children fun _ _ => kept_of_effect hn e
  · have hlt := h.fresh _ hx
    exact absurd (hid ▸ hlt) (Nat.lt_irrefl _)

include hd hc

/-- The scope is closed with a body over what it was given. -/
theorem records {d : Draft} {outer : List Draft} {u : BodyUse} {sc : Scope}
    (r : s.Records d outer u sc s') (hb : FrontBody (fun e => (d.id, e) ∈ offers) sc.body) :
    s'.Supplied vars offers := by
  have e := Effect.abandon r
  have kept : ∀ c x, s.closed.get? c = some x → _ := fun _ _ => kept_of_effect hn e
  constructor
  case fresh =>
    intro p hp
    exact Nat.lt_of_lt_of_le (h.fresh p hp) (freshScope_le_of_effect e)
  case offered => exact fun d hmem x => h.offered_of_effect hn e hmem
  case bodies =>
    intro id x hx
    rcases r.closed_cases hx with ⟨rfl, rfl⟩ | ⟨-, old, hget, he⟩
    · refine hb.imp fun y hy hmem => ?_
      have hof := h.offered d (r.stack_eq ▸ List.mem_cons_self) y hy
      rw [← r.params, ← r.children] at hof
      exact hof.balanced (hc.balanced_record hn hd r) hmem kept
    · rw [he]
      exact frontBody_mono (h.bodies id old hget) kept

theorem step {c : Command} {a : Except ConversionError Answer} (hs : s.Step σ c a s' σ')
    (ho : s.Obeys vars offers c) : s'.Supplied vars (offers ++ credit c a s') := by
  have e := effect_of_step hs
  obtain ⟨around', -, hn'⟩ := hn.effect e
  constructor
  case fresh =>
    intro p hp
    rcases List.mem_append.mp hp with hp | hp
    · exact Nat.lt_of_lt_of_le (h.fresh p hp) (freshScope_le_of_effect e)
    · obtain ⟨-, -, d, outer, hst, hid⟩ := mem_credit hp
      rw [← hid]
      exact ((hn'.of_cons hst).opened _ List.mem_cons_self).2.1
  case offered =>
    intro d hmem x hx
    rcases List.mem_append.mp hx with hx | hx
    · exact h.offered_of_effect hn e hmem hx
    · obtain ⟨-, -, head, outer, hst, hid⟩ := mem_credit hx
      obtain rfl := hn'.eq_head hst hmem hid.symm
      exact offered_of_credit hs ho hst hx
  case bodies =>
    rcases closed_of_step hs with hold | ⟨d, outer, u, sc, s₁, eager, rfl, r, hcl⟩
    · intro id sc hsc
      obtain ⟨old, hget, he⟩ := hold id sc hsc
      rw [he]
      exact frontBody_mono (h.bodies id old hget) fun _ _ => kept_of_effect hn e
    · rw [hcl]
      exact (h.records hn hd hc r (ho d (by rw [r.stack_eq]; rfl))).bodies

end

end Supplied

/-- The parameters of a scope are different, and its carriers are laid out by its environment. -/
structure Formed (s : Session) : Prop where
  opened : ∀ d ∈ s.stack, (d.params.map Param.id).Nodup
  closed : ∀ id sc, s.closed.get? id = some sc → (sc.params.map Param.id).Nodup
  layout : ∀ id sc c, s.closed.get? id = some sc → sc.carried = some c →
    Segments 0 c.env.types c.layout.segments

namespace Formed

theorem new : Formed {} where
  opened := by simp
  closed := by simp
  layout := by simp

theorem of_alive (h : s.Formed) (s' : Session)
    (hs : ∀ d ∈ s'.stack, ∃ e ∈ s.stack, d.params = e.params)
    (hc : ∀ id sc, s'.closed.get? id = some sc →
      ∃ old, s.closed.get? id = some old ∧ sc = { old with alive := sc.alive }) : s'.Formed where
  opened d hd := by
    obtain ⟨e, he, hp⟩ := hs d hd
    rw [hp]
    exact h.opened e he
  closed id sc hsc := by
    obtain ⟨old, ho, e⟩ := hc id sc hsc
    rw [e]
    exact h.closed id old ho
  layout id sc c hsc hcar := by
    obtain ⟨old, ho, e⟩ := hc id sc hsc
    rw [e] at hcar
    exact h.layout id old c ho hcar

theorem records (h : s.Formed) {d : Draft} {outer : List Draft} {u : BodyUse} {sc : Scope}
    (r : s.Records d outer u sc s') : s'.Formed where
  opened e he := h.opened e (r.stack_eq ▸ List.mem_cons_of_mem d (r.stack ▸ he))
  closed id x hx := by
    rcases r.closed_cases hx with ⟨-, rfl⟩ | ⟨-, old, ho, e⟩
    · rw [r.params]
      exact h.opened d (r.stack_eq ▸ List.mem_cons_self)
    · rw [e]
      exact h.closed id old ho
  layout id x c hx hcar := by
    rcases r.closed_cases hx with ⟨-, rfl⟩ | ⟨-, old, ho, e⟩
    · have hc := r.carries
      rw [hcar] at hc
      obtain ⟨-, he, -, -, σ, hl⟩ := hc
      rw [he]
      exact Layout.segments_ofTypes hl
    · rw [e] at hcar
      exact h.layout id old c ho hcar

theorem effect {decl : LocalId → Option (ScopeId × Ty)} (h : s.Formed) (hd : s.Declared decl)
    (e : s.Effect s') : s'.Formed := by
  have same : ∀ id sc, s.closed.get? id = some sc →
      ∃ old, s.closed.get? id = some old ∧ sc = { old with alive := sc.alive } :=
    fun id sc hsc => ⟨sc, hsc, rfl⟩
  cases e with
  | none => exact h
  | enter span => exact ⟨List.forall_mem_cons.mpr ⟨List.nodup_nil, h.opened⟩, h.closed, h.layout⟩
  | @declare d outer p hs hp =>
    have hop := h.opened
    rw [hs, List.forall_mem_cons] at hop
    refine ⟨List.forall_mem_cons.mpr ⟨?_, hop.2⟩, h.closed, h.layout⟩
    rw [List.map_append, List.nodup_append]
    refine ⟨hop.1, by simp, ?_⟩
    -- the id of the new parameter is above those that exist
    intro a ha b hb
    obtain ⟨q, hq, rfl⟩ := List.mem_map.mp ha
    obtain rfl : b = p.id := by simpa using hb
    have howns := hd.opened d (hs ▸ List.mem_cons_self)
    have hlt := (hd.fresh q.id d.id q.ty ((howns q.id q.ty).mpr ⟨q, hq, rfl, rfl⟩)).1
    rw [hp]
    exact Nat.ne_of_lt hlt
  | @begin d outer hs =>
    refine h.of_alive _ (fun e he => ?_) same
    rcases List.mem_cons.mp he with rfl | he
    · exact ⟨d, hs ▸ List.mem_cons_self, rfl⟩
    · exact ⟨e, hs ▸ List.mem_cons_of_mem d he, rfl⟩
  | @request inner outer r hs _ =>
    refine h.of_alive _ (fun e he => ?_) same
    rcases List.mem_append.mp he with he | he
    · obtain ⟨d, hd, rfl⟩ := List.mem_map.mp he
      exact ⟨d, hs ▸ List.mem_append_left outer hd, rfl⟩
    · exact ⟨e, hs ▸ List.mem_append_right inner he, rfl⟩
  | @pop d outer hs =>
    exact h.of_alive _ (fun e he => ⟨e, hs ▸ List.mem_cons_of_mem d he, rfl⟩) same
  | @prune d outer _ u hs _ =>
    exact h.of_alive (s.pruned d outer u)
      (fun e he => ⟨e, hs ▸ List.mem_cons_of_mem d he, rfl⟩) fun _ _ => ScopeTable.get?_of_retireAll
  | abandon r => exact h.records r
  | @attach d _ _ _ s₁ r =>
    refine (h.records r).of_alive (s₁.attach d.id) (fun e he => ?_) fun id sc hsc => ?_
    · obtain ⟨old, ho, heq⟩ := mem_stack_attach he
      exact ⟨old, ho, by rw [heq]⟩
    · rw [closed_attach] at hsc
      exact ⟨sc, hsc, rfl⟩

end Formed

/-- A variable is captured at a type that it may be read at. -/
def AtType (vars : String → Ty → Prop) (x : Slot) : Prop :=
  ∀ name, x.value = .var name → vars name x.ty

/-- All captures are at types that are admitted. -/
structure Typed (vars : String → Ty → Prop) (s : Session) : Prop where
  requested : ∀ d ∈ s.stack, ∀ x ∈ d.requested.slots, AtType vars x
  slots : ∀ id sc, s.closed.get? id = some sc → ∀ x ∈ sc.env.slots, AtType vars x

namespace Typed

theorem new : Typed vars {} where
  requested := by simp
  slots := by simp

section

variable (h : s.Typed vars)

include h

theorem request {inner outer : List Draft} {r : Request} (hs : s.stack = inner ++ outer)
    (hr : AtType vars r.toSlot) :
    ∀ d ∈ inner.map (·.request r) ++ outer, ∀ x ∈ d.requested.slots, AtType vars x := by
  intro d hd x hx
  rcases List.mem_append.mp hd with hd | hd
  · obtain ⟨e, he, rfl⟩ := List.mem_map.mp hd
    rcases (Env.mem_slots_request _ _ _).mp hx with hx | ⟨-, rfl⟩
    · exact h.requested e (hs ▸ List.mem_append_left outer he) x hx
    · exact hr
  · exact h.requested d (hs ▸ List.mem_append_right inner hd) x hx

/-- The scopes that stay open when one is closed. -/
theorem requested_of_closing {body : Expr} {eager : Bool} {r : Except ConversionError Expr}
    (hc : s.Closing body eager σ r s' σ') :
    ∀ d ∈ s'.stack, ∀ x ∈ d.requested.slots, AtType vars x := by
  have outer : ∀ {d : Draft} {outer : List Draft}, s.building = .ok (d, outer) →
      ∀ e ∈ outer, ∀ x ∈ e.requested.slots, AtType vars x := by
    intro d outer hb e he
    exact h.requested e ((building_eq_ok_iff.mp hb).1 ▸ List.mem_cons_of_mem d he)
  have attached : ∀ {s₁ : Session} {d : Draft} {rest : List Draft}, s.building = .ok (d, rest) →
      s₁.stack = rest → ∀ e ∈ (s₁.attach d.id).stack, ∀ x ∈ e.requested.slots, AtType vars x := by
    intro s₁ d rest hb hst e he x hx
    obtain ⟨old, hold, heq⟩ := mem_stack_attach he
    rw [heq] at hx
    exact outer hb old (hst ▸ hold) x hx
  cases hc with
  | refused _ => exact h.requested
  | rejected hb _ => exact outer hb
  | unrequested hb _ _ => exact outer hb
  | uncarried hb _ _ _ => exact outer hb
  | uncompiled acc _ _ => exact outer acc.building
  | compiled acc _ _ => exact attached acc.building rfl
  | deferred acc _ => exact attached acc.building rfl

theorem slots_of_records {d : Draft} {outer : List Draft} {u : BodyUse} {sc : Scope}
    (r : s.Records d outer u sc s') {x : Slot} (hx : x ∈ sc.env.slots) : AtType vars x := by
  have hgather : x ∈ (d.gather s.closed u).slots := by
    have hc := r.carries
    cases hcar : sc.carried with
    | none =>
      rw [Scope.env_of_static hcar] at hx
      cases hx
    | some c =>
      rw [hcar] at hc
      rwa [Scope.env_of_carried hcar, hc.2.1] at hx
  rcases Draft.mem_slots_gather hgather with hx | ⟨c, -, -, hx, -⟩
  · rcases Draft.mem_slots_uses r.uses hx with hx | rfl
    · exact h.requested d (r.stack_eq ▸ List.mem_cons_self) x hx
    · exact nofun
  · unfold ScopeTable.envOf at hx
    cases hget : s.closed.get? c with
    | none =>
      rw [hget] at hx
      cases hx
    | some child =>
      rw [hget] at hx
      exact h.slots c child hget x hx

theorem records {d : Draft} {outer : List Draft} {u : BodyUse} {sc : Scope}
    (r : s.Records d outer u sc s') : s'.Typed vars where
  requested e he := h.requested e (r.stack_eq ▸ List.mem_cons_of_mem d (r.stack ▸ he))
  slots id x hx := by
    rcases r.closed_cases hx with ⟨-, rfl⟩ | ⟨-, old, hget, e⟩
    · exact fun y => h.slots_of_records r
    · rw [e]
      exact h.slots id old hget

theorem step {c : Command} {a : Except ConversionError Answer} (hs : s.Step σ c a s' σ')
    (ho : ∀ name ty, c = .var name ty → vars name ty) : s'.Typed vars := by
  constructor
  case requested =>
    cases hs with
    | failed _ => exact h.requested
    | entered _ => exact List.forall_mem_cons.mpr ⟨by simp, h.requested⟩
    | declared hst _ _ =>
      have hr := h.requested
      rw [hst, List.forall_mem_cons] at hr
      exact List.forall_mem_cons.mpr hr
    | begun hst _ =>
      have hr := h.requested
      rw [hst, List.forall_mem_cons] at hr
      exact List.forall_mem_cons.mpr hr
    | notFound _ => exact h.requested
    | found _ hst _ _ => exact h.request hst nofun
    | argument _ => simpa using h.request (List.append_nil s.stack).symm (r := .argument _) nofun
    | @var name ty _ _ _ =>
      have hty : AtType vars (Request.var name ty).toSlot := by
        rintro _ ⟨⟩
        exact ho name ty rfl
      simpa using h.request (List.append_nil s.stack).symm hty
    | closed hc => exact h.requested_of_closing hc
  case slots =>
    rcases closed_of_step hs with hold | ⟨d, outer, u, sc, s₁, eager, -, r, hcl⟩
    · intro id sc hsc
      obtain ⟨old, hget, e⟩ := hold id sc hsc
      rw [e]
      exact h.slots id old hget
    · rw [hcl]
      exact (h.records r).slots

end

end Typed

/-- What is known of the session of a front end: the ghost functions of `Reachable.history`, and
that requests and offers fit. -/
structure Known (vars : String → Ty → Prop) (offers : List (ScopeId × Expr))
    (around : ScopeId → List ScopeId) (decl : LocalId → Option (ScopeId × Ty)) (s : Session) :
    Prop where
  nested : s.Nested around
  declared : s.Declared decl
  captured : s.Captured around decl
  covered : s.Covered
  formed : s.Formed
  supplied : s.Supplied vars offers
  typed : s.Typed vars

namespace Known

variable {decl : LocalId → Option (ScopeId × Ty)} (h : s.Known vars offers around decl)

include h

theorem step {c : Command} {a : Except ConversionError Answer} (hs : s.Step σ c a s' σ')
    (ho : s.Obeys vars offers c) :
    ∃ around' decl', s'.Known vars (offers ++ credit c a s') around' decl' ∧
      ∀ id, id < s.freshScope → around' id = around id := by
  have e := effect_of_step hs
  obtain ⟨around', ha, hn⟩ := h.nested.effect e
  obtain ⟨decl', hv, hd⟩ := h.declared.effect h.nested e
  have hvar : ∀ name ty, c = .var name ty → vars name ty := by
    rintro name ty rfl
    exact ho
  refine ⟨around', decl', ⟨hn, hd, ?_, ?_, ?_, ?_, h.typed.step hs hvar⟩, ha⟩
  · exact h.captured.effect h.nested h.declared e hn ha hv
  · exact h.covered.effect h.nested h.declared h.captured e
  · exact h.formed.effect h.declared e
  · exact h.supplied.step h.nested h.declared h.captured hs ho

/-- The session in which a scope is recorded, before it is attached. -/
theorem records {d : Draft} {outer : List Draft} {u : BodyUse} {sc : Scope}
    (r : s.Records d outer u sc s') (hb : FrontBody (fun e => (d.id, e) ∈ offers) sc.body) :
    s'.Known vars offers around decl where
  nested := h.nested.records r
  declared := h.declared.records r
  captured := h.captured.records h.nested h.declared r
  covered := h.covered.records h.nested r
  formed := h.formed.records r
  supplied := h.supplied.records h.nested h.declared h.captured r hb
  typed := h.typed.records r

end Known

end Session

end ClosureConversion
