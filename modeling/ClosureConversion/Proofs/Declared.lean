import ClosureConversion.Proofs.Forest

/-!
Which scope declares which parameter.

Parameter ids are never used twice, so a ghost function `decl` can tell for every id that was ever
handed out the scope that declares it and its type, also when that scope is long gone.
`Session.Declared` relates it to the session.
-/

namespace ClosureConversion

/-- The parameters of the scope `id` are the ones that it declares. -/
def Owns (decl : LocalId → Option (ScopeId × Ty)) (id : ScopeId) (params : List Param) : Prop :=
  ∀ v ty, decl v = some (id, ty) ↔ ∃ p ∈ params, p.id = v ∧ p.ty = ty

namespace Session

structure Declared (decl : LocalId → Option (ScopeId × Ty)) (s : Session) : Prop where
  opened : ∀ d ∈ s.stack, Owns decl d.id d.params
  closed : ∀ id sc, s.closed.get? id = some sc → Owns decl id sc.params
  fresh : ∀ v owner ty, decl v = some (owner, ty) →
    v < s.freshLocal ∧ rootScope < owner ∧ owner < s.freshScope
  carrier : ∀ id sc c, s.closed.get? id = some sc → sc.carried = some c →
    decl c.param.id = none ∧ c.param.id < s.freshLocal

namespace Declared

variable {around : ScopeId → List ScopeId} {decl : LocalId → Option (ScopeId × Ty)}
  {s s' : Session} {d : Draft} {outer : List Draft} {u : BodyUse} {sc : Scope}

theorem new : Declared (fun _ => none) {} where
  opened := by simp
  closed := by simp
  fresh := by simp
  carrier := by simp

/-- The parameters of the open scopes may be spread over another stack. -/
theorem of_stack (h : s.Declared decl) {stack : List Draft} {closed : ScopeTable}
    {roots : List ScopeId}
    (hs : ∀ d ∈ stack, ∃ e ∈ s.stack, e.id = d.id ∧ e.params = d.params)
    (hc : ∀ id sc, closed.get? id = some sc →
      ∃ old, s.closed.get? id = some old ∧ sc = { old with alive := sc.alive }) :
    Declared decl { s with stack, closed, roots } where
  opened d hd := by
    obtain ⟨e, he, hid, hp⟩ := hs d hd
    rw [← hid, ← hp]
    exact h.opened e he
  closed id sc hsc := by
    obtain ⟨old, ho, e⟩ := hc id sc hsc
    rw [e]
    exact h.closed id old ho
  fresh := h.fresh
  carrier id sc c hsc hcar := by
    obtain ⟨old, ho, e⟩ := hc id sc hsc
    rw [e] at hcar
    exact h.carrier id old c ho hcar

theorem enter (h : s.Declared decl) (span : Span) :
    Declared decl { s with
      stack := { id := s.freshScope, span } :: s.stack, freshScope := s.freshScope + 1 } where
  opened := by
    rw [List.forall_mem_cons]
    refine ⟨fun v ty => ?_, h.opened⟩
    simp only [List.not_mem_nil, false_and, exists_false, iff_false]
    intro hv
    exact Nat.lt_irrefl _ (h.fresh v _ ty hv).2.2
  closed := h.closed
  fresh v owner ty hv := by
    have := h.fresh v owner ty hv
    exact ⟨this.1, this.2.1, Nat.lt_succ_of_lt this.2.2⟩
  carrier := h.carrier

theorem declare (h : s.Declared decl) (hn : s.Nested around) (hs : s.stack = d :: outer) {p : Param}
    (hp : p.id = s.freshLocal) :
    Declared (fun v => if v = s.freshLocal then some (d.id, p.ty) else decl v)
      { s with stack := { d with params := d.params ++ [p] } :: outer,
               freshLocal := s.freshLocal + 1 } := by
  have hf := hn.of_cons hs
  have unborn : decl s.freshLocal = none := by
    cases hv : decl s.freshLocal with
    | none => rfl
    | some o => exact absurd (h.fresh s.freshLocal o.1 o.2 hv).1 (Nat.lt_irrefl _)
  -- a scope other than `d` owns what it owned before
  have other : ∀ id params, id ≠ d.id → Owns decl id params →
      Owns (fun v => if v = s.freshLocal then some (d.id, p.ty) else decl v) id params := by
    intro id params hid ho v ty
    rw [← ho v ty]
    by_cases hv : v = s.freshLocal
    · subst hv
      simp [unborn, Ne.symm hid]
    · simp [hv]
  constructor
  case opened =>
    rw [List.forall_mem_cons]
    have hopen := h.opened
    rw [hs, List.forall_mem_cons] at hopen
    refine ⟨fun v ty => ?_, fun e he => ?_⟩
    · simp only [List.mem_append, List.mem_singleton]
      by_cases hv : v = s.freshLocal
      · subst hv
        have : ¬ ∃ q ∈ d.params, q.id = s.freshLocal ∧ q.ty = ty := by
          rw [← hopen.1, unborn]
          simp
        grind
      · have := hopen.1 v ty
        grind
    · have hmem : e.id ∈ Outline.ids (outer.map fun d => (d.id, d.children)) := by
        simp only [Outline.ids, List.map_map]
        exact List.mem_map_of_mem he
      have hlt := hf.nests.2.1 e.id hmem
      exact other e.id e.params (Nat.ne_of_lt hlt) (hopen.2 e he)
  case closed =>
    intro id sc hsc
    exact other id sc.params (hf.open_ne_closed List.mem_cons_self hsc).symm (h.closed id sc hsc)
  case fresh =>
    intro v owner ty hv
    by_cases hvf : v = s.freshLocal
    · simp only [hvf, if_true, Option.some.injEq, Prod.mk.injEq] at hv
      obtain ⟨rfl, -⟩ := hv
      have ho := hf.opened _ List.mem_cons_self
      exact ⟨hvf ▸ Nat.lt_succ_self _, ho.1, ho.2.1⟩
    · simp only [hvf, if_false] at hv
      have := h.fresh v owner ty hv
      exact ⟨Nat.lt_succ_of_lt this.1, this.2⟩
  case carrier =>
    intro id sc c hsc hc
    obtain ⟨hn, hlt⟩ := h.carrier id sc c hsc hc
    exact ⟨(if_neg (Nat.ne_of_lt hlt)).trans hn, Nat.lt_succ_of_lt hlt⟩

theorem records (h : s.Declared decl) (r : s.Records d outer u sc s') : s'.Declared decl := by
  have hopen := h.opened
  rw [r.stack_eq, List.forall_mem_cons] at hopen
  have hlocal : s.freshLocal ≤ s'.freshLocal ∧ ∀ c, sc.carried = some c →
      c.param.id = s.freshLocal ∧ s'.freshLocal = s.freshLocal + 1 := by
    have hc := r.carries
    cases hcar : sc.carried with
    | none =>
      rw [hcar] at hc
      exact ⟨Nat.le_of_eq hc.2.symm, by simp⟩
    | some c =>
      rw [hcar] at hc
      obtain ⟨-, -, hp, hf, -⟩ := hc
      refine ⟨hf ▸ Nat.le_succ _, fun c' hc' => ?_⟩
      cases hc'
      exact ⟨hp, hf⟩
  constructor
  case opened =>
    rw [r.stack]
    exact hopen.2
  case closed =>
    intro id x hx
    rcases r.closed_cases hx with ⟨rfl, rfl⟩ | ⟨-, old, ho, e⟩
    · rw [r.params]
      exact hopen.1
    · rw [e]
      exact h.closed id old ho
  case fresh =>
    intro v owner ty hv
    have := h.fresh v owner ty hv
    rw [r.freshScope]
    exact ⟨Nat.lt_of_lt_of_le this.1 hlocal.1, this.2⟩
  case carrier =>
    intro id x c hx hc
    rcases r.closed_cases hx with ⟨rfl, rfl⟩ | ⟨-, old, ho, e⟩
    · obtain ⟨hp, hf⟩ := hlocal.2 c hc
      rw [hp, hf]
      refine ⟨?_, Nat.lt_succ_self _⟩
      cases hv : decl s.freshLocal with
      | none => rfl
      | some o => exact absurd (h.fresh s.freshLocal o.1 o.2 hv).1 (Nat.lt_irrefl _)
    · rw [e] at hc
      obtain ⟨hn, hlt⟩ := h.carrier id old c ho hc
      exact ⟨hn, Nat.lt_of_lt_of_le hlt hlocal.1⟩

theorem attach (h : s.Declared decl) (id : ScopeId) : (s.attach id).Declared decl where
  opened d hd := by
    obtain ⟨old, ho, e⟩ := mem_stack_attach hd
    rw [e]
    exact h.opened old ho
  closed := by
    rw [closed_attach]
    exact h.closed
  fresh := by
    rw [freshLocal_attach, freshScope_attach]
    exact h.fresh
  carrier := by
    rw [closed_attach, freshLocal_attach]
    exact h.carrier

/-- The declarations grow along every effect. -/
theorem effect (h : s.Declared decl) (hn : s.Nested around) (e : s.Effect s') :
    ∃ decl', (∀ v, v < s.freshLocal → decl' v = decl v) ∧ s'.Declared decl' := by
  have same : ∀ id sc, s.closed.get? id = some sc →
      ∃ old, s.closed.get? id = some old ∧ sc = { old with alive := sc.alive } :=
    fun _ sc hsc => ⟨sc, hsc, rfl⟩
  cases e with
  | none => exact ⟨decl, fun _ _ => rfl, h⟩
  | enter span => exact ⟨decl, fun _ _ => rfl, h.enter span⟩
  | declare hs hp =>
    refine ⟨_, fun v hv => ?_, h.declare hn hs hp⟩
    exact if_neg (Nat.ne_of_lt hv)
  | @begin d outer hs =>
    refine ⟨decl, fun _ _ => rfl, h.of_stack ?_ same⟩
    rw [List.forall_mem_cons, hs]
    exact ⟨⟨d, List.mem_cons_self, rfl, rfl⟩, fun e he => ⟨e, List.mem_cons_of_mem d he, rfl, rfl⟩⟩
  | @request inner outer r hs _ =>
    refine ⟨decl, fun _ _ => rfl, h.of_stack ?_ same⟩
    intro e he
    rw [hs]
    rcases List.mem_append.mp he with he | he
    · obtain ⟨d, hd, rfl⟩ := List.mem_map.mp he
      exact ⟨d, List.mem_append_left outer hd, rfl, rfl⟩
    · exact ⟨e, List.mem_append_right inner he, rfl, rfl⟩
  | @pop d outer hs =>
    refine ⟨decl, fun _ _ => rfl, h.of_stack ?_ same⟩
    intro e he
    exact ⟨e, hs ▸ List.mem_cons_of_mem d he, rfl, rfl⟩
  | @prune d outer body u hs _ =>
    refine ⟨decl, fun _ _ => rfl, h.of_stack ?_ fun _ _ => ScopeTable.get?_of_retireAll⟩
    intro e he
    exact ⟨e, hs ▸ List.mem_cons_of_mem d he, rfl, rfl⟩
  | abandon r => exact ⟨decl, fun _ _ => rfl, h.records r⟩
  | @attach d _ _ _ _ r => exact ⟨decl, fun _ _ => rfl, (h.records r).attach d.id⟩

end Declared

end Session

end ClosureConversion
