import ClosureConversion.Proofs.Environment
import ClosureConversion.Proofs.Retire
import ClosureConversion.Proofs.Tree
import ClosureConversion.Session.Close

/-!
What closing a scope finds in the finished body.

The scan of a body succeeds iff every node is one that the scope admits (`Draft.uses_isOk_iff`), and
then collects exactly what the body reads and uses: `Draft.contains_uses`, `Draft.mem_tokens_uses`
and their neighbours.  `Draft.contains_gather` and those after it say what the scopes in use add.
-/

namespace ClosureConversion

/-- The value is one of these parameters. -/
def Declares (params : List Param) (v : Capture) : Prop := ∃ p ∈ params, Capture.loc p.id = v

theorem declares_loc (params : List Param) (id : LocalId) :
    Declares params (.loc id) ↔ id ∈ params.map Param.id := by
  simp [Declares]

namespace Draft

/-! ## The scan of a body -/

/-- The node may stand in the body: what it reads is declared here or was requested, and a scope
that it stands for is a child. -/
def Admits (d : Draft) (n : Expr) : Prop :=
  (∀ v, n.capture? = some v → Declares d.params v ∨ d.requested.contains v = true) ∧
    ∀ c, n.scopeToken? = some c → c ∈ d.children

theorem grant_eq_ok_iff {d : Draft} {env env' : Env} {v : Capture} :
    d.grant env v = .ok env' ↔ ∃ slot, d.requested.slot? v = some slot ∧ env' = env.insert slot := by
  unfold grant
  cases d.requested.slot? v with
  | none => simp
  | some slot =>
    simp only [Except.ok.injEq, Option.some.injEq, exists_eq_left']
    exact eq_comm

/-- What the scan of the nodes `ns` adds to `u`.  The vector of an entry is met one node after the
entry itself, hence the last case of `contains`. -/
structure Seen (d : Draft) (ns : List Expr) (u u' : BodyUse) : Prop where
  contains : ∀ v, u'.env.contains v = true ↔ u.env.contains v = true ∨
    (∃ n ∈ ns, n.capture? = some v ∧ ¬ Declares d.params v) ∨
      v = .args ∧ ∃ i ty, .arg .args i ty ∈ ns
  slots : ∀ s ∈ u'.env.slots,
    s ∈ u.env.slots ∨ s ∈ d.requested.slots ∨ s = (Request.argument 0).toSlot
  indices : ∀ i, i ∈ u'.env.indices ↔ i ∈ u.env.indices ∨ ∃ ty, .arg .args i ty ∈ ns
  names : ∀ name, name ∈ u'.env.names ↔ name ∈ u.env.names ∨ ∃ ty, .var name ty ∈ ns
  tokens : ∀ c, c ∈ u'.tokens ↔ c ∈ u.tokens ∨ ∃ n ∈ ns, n.scopeToken? = some c
  admitted : ∀ n ∈ ns, d.Admits n

namespace Seen

variable {d : Draft} {ns ms : List Expr} {u v w : BodyUse}

theorem nil (d : Draft) (u : BodyUse) : d.Seen [] u u := by
  constructor <;> simp +contextual

theorem trans (h : d.Seen ns u v) (k : d.Seen ms v w) : d.Seen (ns ++ ms) u w where
  contains x := by
    rw [k.contains, h.contains]
    simp only [List.mem_append, or_and_right, exists_or, and_or_left]
    grind
  slots s hs := by
    rcases k.slots s hs with hs | hs
    · exact h.slots s hs
    · exact .inr hs
  indices i := by
    rw [k.indices, h.indices]
    simp only [List.mem_append, exists_or, or_assoc]
  names name := by
    rw [k.names, h.names]
    simp only [List.mem_append, exists_or, or_assoc]
  tokens c := by
    rw [k.tokens, h.tokens]
    simp only [List.mem_append, or_and_right, exists_or, or_assoc]
  admitted n hn := by
    rcases List.mem_append.mp hn with hn | hn
    · exact h.admitted n hn
    · exact k.admitted n hn

end Seen

/-- A node that reads `v` and does nothing else, when the slot of `v` is granted. -/
theorem seen_granted {d : Draft} {u : BodyUse} {n : Expr} {v : Capture} {slot : Slot}
    (hn : n.capture? = some v) (hv : ¬ Declares d.params v) (hvar : ∀ name ty, n ≠ .var name ty)
    (hs : d.requested.slot? v = some slot) :
    d.Seen [n] u { u with env := u.env.insert slot } := by
  obtain ⟨hmem, rfl⟩ := Env.mem_of_slot? hs
  have harg : ∀ i ty, n ≠ .arg .args i ty := by
    rintro i ty rfl
    simp [Term.capture?] at hn
  have htok : n.scopeToken? = none := by
    cases n <;> simp_all [Term.capture?, Term.scopeToken?]
  constructor
  · intro x
    simp only [Env.contains_insert, List.mem_singleton, exists_eq_left, hn, Option.some.injEq]
    grind
  · intro s h
    rcases (Env.mem_slots_insert _ _ _).mp h with h | ⟨-, rfl⟩
    · exact .inl h
    · exact .inr (.inl hmem)
  · simp [Ne.symm (harg _ _)]
  · simp [Ne.symm (hvar _ _)]
  · simp [htok]
  · intro m hm
    obtain rfl := List.mem_singleton.mp hm
    refine ⟨fun x hx => .inr ?_, by simp [htok]⟩
    obtain rfl : slot.value = x := by simpa [hn] using hx
    exact Env.contains_of_mem hmem

/-- A node that leaves the collection as it is. -/
theorem seen_ignored {d : Draft} {u : BodyUse} {n : Expr}
    (hv : ∀ v, n.capture? = some v → Declares d.params v) (ht : n.scopeToken? = none)
    (ha : ∀ i ty, n ≠ .arg .args i ty) : d.Seen [n] u u := by
  have hvar : ∀ name ty, n ≠ .var name ty := by
    rintro name ty rfl
    obtain ⟨p, -, hp⟩ := hv (.var name) rfl
    cases hp
  constructor
  · intro v
    simp only [List.mem_singleton, exists_eq_left, Ne.symm (ha _ _), exists_false, and_false,
      or_false]
    grind
  · exact fun s hs => .inl hs
  · simp [Ne.symm (ha _ _)]
  · simp [Ne.symm (hvar _ _)]
  · simp [ht]
  · intro m hm
    obtain rfl := List.mem_singleton.mp hm
    exact ⟨fun v h => .inl (hv v h), by simp [ht]⟩

theorem seen_token {d : Draft} {u : BodyUse} {n : Expr} {c : ScopeId}
    (hn : n.scopeToken? = some c) (hc : c ∈ d.children) :
    d.Seen [n] u { u with tokens := c :: u.tokens } := by
  have hcap : n.capture? = none := by
    cases n <;> simp_all [Term.capture?, Term.scopeToken?]
  have hvar : ∀ name ty, n ≠ .var name ty := by
    rintro name ty rfl
    simp [Term.capture?] at hcap
  have harg : ∀ i ty, n ≠ .arg .args i ty := by
    rintro i ty rfl
    simp [Term.scopeToken?] at hn
  constructor
  · simp [hcap, Ne.symm (harg _ _)]
  · exact fun s hs => .inl hs
  · simp [Ne.symm (harg _ _)]
  · simp [Ne.symm (hvar _ _)]
  · intro x
    simp only [List.mem_cons, List.not_mem_nil, or_false, exists_eq_left, hn, Option.some.injEq]
    rw [or_comm, eq_comm]
  · intro m hm
    obtain rfl := List.mem_singleton.mp hm
    refine ⟨by simp [hcap], fun x hx => ?_⟩
    obtain rfl : c = x := by simpa [hn] using hx
    exact hc

theorem seen_index (d : Draft) (u : BodyUse) (i : Nat) (ty : Ty) :
    d.Seen [.arg .args i ty] u { u with env := u.env.request (.argument i) } := by
  constructor
  · intro v
    simp only [Env.contains_request, Request.toSlot, List.mem_singleton, exists_eq_left,
      Term.capture?]
    grind
  · intro s hs
    rcases (Env.mem_slots_request _ _ _).mp hs with h | ⟨-, rfl⟩
    · exact .inl h
    · exact .inr (.inr rfl)
  · intro j
    simp only [Env.indices_request, Env.note, SortedSet.mem_insert, List.mem_singleton,
      Term.arg.injEq, true_and, exists_and_left, exists_eq, and_true]
    exact or_comm
  · simp [Env.note]
  · simp [Term.scopeToken?]
  · intro m hm
    obtain rfl := List.mem_singleton.mp hm
    simp [Admits, Term.capture?, Term.scopeToken?]

theorem seen_var {d : Draft} {u : BodyUse} {name : String} {ty : Ty} {slot : Slot}
    (hs : d.requested.slot? (.var name) = some slot) :
    d.Seen [.var name ty] u { u with env := (u.env.insert slot).request (.var name ty) } := by
  obtain ⟨hmem, hval⟩ := Env.mem_of_slot? hs
  constructor
  · intro v
    simp only [Env.contains_request, Env.contains_insert, Request.toSlot, hval, List.mem_singleton,
      exists_eq_left, Term.capture?, Option.some.injEq, reduceCtorEq, exists_false, and_false,
      or_false, or_assoc, or_self]
    have : Capture.var name = v → ¬ Declares d.params v := by
      rintro rfl ⟨p, -, hp⟩
      cases hp
    grind
  · intro s h
    rcases (Env.mem_slots_request _ _ _).mp h with h | ⟨hno, -⟩
    · rcases (Env.mem_slots_insert _ _ _).mp h with h | ⟨-, rfl⟩
      · exact .inl h
      · exact .inr (.inl hmem)
    · -- the request adds nothing, since the granted slot already holds the variable
      exact absurd ((Env.contains_insert _ _ _).mpr (.inr hval)) hno
  · simp [Env.note]
  · intro x
    simp only [Env.names_request, Env.note, Env.names_insert, SortedSet.mem_insert,
      List.mem_singleton, Term.var.injEq, exists_and_left, exists_eq, and_true]
    exact or_comm
  · simp [Term.scopeToken?]
  · intro m hm
    obtain rfl := List.mem_singleton.mp hm
    refine ⟨fun v hv => .inr ?_, by simp [Term.scopeToken?]⟩
    obtain rfl : Capture.var name = v := by simpa [Term.capture?] using hv
    exact hval ▸ Env.contains_of_mem hmem

theorem seen_of_see {d : Draft} {u u' : BodyUse} {n : Expr} (h : d.see u n = .ok u') :
    d.Seen [n] u u' := by
  unfold see at h
  split at h
  · next id =>
    split at h
    · next hid =>
      cases h
      refine seen_ignored (fun v hv => ?_) rfl (by simp)
      obtain rfl : Capture.loc id = v := by simpa [Term.capture?] using hv
      exact (declares_loc _ _).mpr hid
    · next hid =>
      cases hg : d.grant u.env (.loc id) with
      | error b => simp [hg, bind, Except.bind] at h
      | ok env =>
        obtain ⟨slot, hs, rfl⟩ := grant_eq_ok_iff.mp hg
        simp only [hg, bind, Except.bind, pure, Except.pure, Except.ok.injEq] at h
        subst h
        exact seen_granted rfl (fun hd => hid ((declares_loc _ _).mp hd)) (by simp) hs
  · cases hg : d.grant u.env .args with
    | error b => simp [hg, bind, Except.bind] at h
    | ok env =>
      obtain ⟨slot, hs, rfl⟩ := grant_eq_ok_iff.mp hg
      simp only [hg, bind, Except.bind, pure, Except.pure, Except.ok.injEq] at h
      subst h
      exact seen_granted rfl (by simp [Declares]) (by simp) hs
  · cases h
    exact seen_index d u _ _
  · next name ty =>
    cases hg : d.grant u.env (.var name) with
    | error b => simp [hg, bind, Except.bind] at h
    | ok env =>
      obtain ⟨slot, hs, rfl⟩ := grant_eq_ok_iff.mp hg
      simp only [hg, bind, Except.bind, pure, Except.pure, Except.ok.injEq] at h
      subst h
      exact seen_var hs
  · split at h
    · next hc =>
      cases h
      exact seen_token rfl hc
    · cases h
  · split at h
    · next hc =>
      cases h
      exact seen_token rfl hc
    · cases h
  · next hloc hargs harg hvar hph hdel =>
    cases h
    refine seen_ignored (fun v hv => ?_) ?_ harg
    · cases n <;> simp_all [Term.capture?]
    · cases n <;> simp_all [Term.scopeToken?]

theorem seen_of_foldlM {d : Draft} {ns : List Expr} {u u' : BodyUse}
    (h : ns.foldlM d.see u = .ok u') : d.Seen ns u u' := by
  induction ns generalizing u with
  | nil =>
    cases h
    exact .nil d u'
  | cons n ns ih =>
    rw [List.foldlM_cons] at h
    cases hn : d.see u n with
    | error b => simp [hn, bind, Except.bind] at h
    | ok v =>
      simp only [hn, bind, Except.bind] at h
      exact (seen_of_see hn).trans (ih h)

theorem see_isOk {d : Draft} {n : Expr} (h : d.Admits n) (u : BodyUse) :
    ∃ u', d.see u n = .ok u' := by
  have granted : ∀ v, n.capture? = some v → ¬ Declares d.params v → ∀ env,
      ∃ env', d.grant env v = .ok env' := by
    intro v hv hd env
    cases hs : d.requested.slot? v with
    | some slot => exact ⟨env.insert slot, grant_eq_ok_iff.mpr ⟨slot, hs, rfl⟩⟩
    | none => exact absurd ((h.1 v hv).resolve_left hd) ((Env.slot?_eq_none_iff _ v).mp hs)
  unfold see
  split
  · next id =>
    split
    · exact ⟨u, rfl⟩
    · next hid =>
      obtain ⟨env, he⟩ := granted (.loc id) rfl (fun hd => hid ((declares_loc _ _).mp hd)) u.env
      exact ⟨{ u with env }, by simp [he, bind, Except.bind, pure, Except.pure]⟩
  · obtain ⟨env, he⟩ := granted .args rfl (by simp [Declares]) u.env
    exact ⟨{ u with env }, by simp [he, bind, Except.bind, pure, Except.pure]⟩
  · exact ⟨_, rfl⟩
  · next name ty =>
    obtain ⟨env, he⟩ := granted (.var name) rfl (by simp [Declares]) u.env
    exact ⟨{ u with env := env.request (.var name ty) },
      by simp [he, bind, Except.bind, pure, Except.pure]⟩
  · next c => exact ⟨_, if_pos (h.2 c rfl)⟩
  · next c f => exact ⟨_, if_pos (h.2 c rfl)⟩
  · exact ⟨u, rfl⟩

theorem foldlM_see_isOk {d : Draft} {ns : List Expr} (h : ∀ n ∈ ns, d.Admits n) (u : BodyUse) :
    ∃ u', ns.foldlM d.see u = .ok u' := by
  induction ns generalizing u with
  | nil => exact ⟨u, rfl⟩
  | cons n ns ih =>
    rw [List.forall_mem_cons] at h
    obtain ⟨v, hv⟩ := see_isOk h.1 u
    obtain ⟨w, hw⟩ := ih h.2 v
    exact ⟨w, by simp [List.foldlM_cons, hv, hw, bind, Except.bind]⟩

/-- The scan succeeds iff the scope admits every node of the body. -/
theorem uses_isOk_iff (d : Draft) (body : Expr) :
    (∃ u, d.uses body = .ok u) ↔ ∀ n ∈ body.nodes, d.Admits n := by
  constructor
  · rintro ⟨u, hu⟩
    exact (seen_of_foldlM hu).admitted
  · exact fun h => foldlM_see_isOk h {}

section

variable {d : Draft} {body : Expr} {u : BodyUse}

theorem contains_uses (h : d.uses body = .ok u) (v : Capture) :
    u.env.contains v = true ↔ body.Reads v ∧ ¬ Declares d.params v := by
  rw [(seen_of_foldlM h).contains]
  constructor
  · rintro (h | ⟨n, hn, hv, hd⟩ | ⟨rfl, i, ty, hi⟩)
    · exact absurd h (Env.not_contains_empty v)
    · exact ⟨⟨n, hn, hv⟩, hd⟩
    · exact ⟨Term.ReadsIndex.args ⟨ty, hi⟩, by simp [Declares]⟩
  · rintro ⟨⟨n, hn, hv⟩, hd⟩
    exact .inr (.inl ⟨n, hn, hv, hd⟩)

theorem mem_slots_uses (h : d.uses body = .ok u) {s : Slot} (hs : s ∈ u.env.slots) :
    s ∈ d.requested.slots ∨ s = (Request.argument 0).toSlot :=
  ((seen_of_foldlM h).slots s hs).resolve_left List.not_mem_nil

theorem mem_indices_uses (h : d.uses body = .ok u) (i : Nat) :
    i ∈ u.env.indices ↔ body.ReadsIndex i := by
  rw [(seen_of_foldlM h).indices]
  exact or_iff_right (SortedSet.not_mem_empty i)

theorem mem_names_uses (h : d.uses body = .ok u) (name : String) :
    name ∈ u.env.names ↔ body.ReadsName name := by
  rw [(seen_of_foldlM h).names]
  exact or_iff_right (SortedSet.not_mem_empty name)

theorem mem_tokens_uses (h : d.uses body = .ok u) (c : ScopeId) : c ∈ u.tokens ↔ body.Uses c := by
  rw [(seen_of_foldlM h).tokens]
  exact or_iff_right List.not_mem_nil

theorem mem_children_of_uses (h : d.uses body = .ok u) {c : ScopeId} (hc : body.Uses c) :
    c ∈ d.children := by
  obtain ⟨n, hn, ht⟩ := hc
  exact ((seen_of_foldlM h).admitted n hn).2 c ht

end

end Draft

/-! ## What the scopes in use add -/

/-- What a scope captures: nothing if it is static. -/
def Scope.env (s : Scope) : Env := s.env?.getD {}

/-- What the scope `id` of the table captures. -/
def ScopeTable.envOf (t : ScopeTable) (id : ScopeId) : Env := (t.get? id).elim {} Scope.env

namespace Draft

variable (d : Draft) (t : ScopeTable)

/-- One step of `gather`. -/
def forwardOf (env : Env) (c : ScopeId) : Env :=
  ((t.get? c).bind Scope.env?).elim env (env.forward · d.id)

theorem forwardOf_cases (env : Env) (c : ScopeId) :
    d.forwardOf t env c = env.forward (t.envOf c) d.id ∨
      d.forwardOf t env c = env ∧ t.envOf c = {} := by
  unfold forwardOf ScopeTable.envOf
  cases hc : t.get? c with
  | none => exact .inr ⟨rfl, rfl⟩
  | some s =>
    unfold Scope.env
    cases he : s.env? with
    | none => exact .inr ⟨by simp [he], by simp [he]⟩
    | some e => exact .inl (by simp [he])

theorem contains_forwardOf (env : Env) (c : ScopeId) (v : Capture) :
    (d.forwardOf t env c).contains v = true ↔
      env.contains v = true ∨ ∃ s ∈ (t.envOf c).slots, s.owner ≠ d.id ∧ s.value = v := by
  rcases d.forwardOf_cases t env c with h | ⟨h, he⟩
  · rw [h, Env.contains_forward]
  · simp [h, he]

theorem mem_indices_forwardOf (env : Env) (c : ScopeId) (i : Nat) :
    i ∈ (d.forwardOf t env c).indices ↔ i ∈ env.indices ∨ i ∈ (t.envOf c).indices := by
  rcases d.forwardOf_cases t env c with h | ⟨h, he⟩
  · rw [h, Env.mem_indices_forward, or_comm]
  · simp [h, he]

theorem mem_names_forwardOf (env : Env) (c : ScopeId) (name : String) :
    name ∈ (d.forwardOf t env c).names ↔ name ∈ env.names ∨ name ∈ (t.envOf c).names := by
  rcases d.forwardOf_cases t env c with h | ⟨h, he⟩
  · rw [h, Env.mem_names_forward, or_comm]
  · simp [h, he]

theorem gather_eq (u : BodyUse) :
    d.gather t u = (d.children.filter (· ∈ u.tokens)).foldl (d.forwardOf t) u.env := rfl

variable {d t}

/-- A property of environments that each step adds from the child alone. -/
theorem gather_iff (P : Env → Prop) {Q : ScopeId → Prop}
    (step : ∀ env c, P (d.forwardOf t env c) ↔ P env ∨ Q c) (u : BodyUse) :
    P (d.gather t u) ↔ P u.env ∨ ∃ c ∈ d.children, c ∈ u.tokens ∧ Q c := by
  have main : ∀ (cs : List ScopeId) (env : Env),
      P (cs.foldl (d.forwardOf t) env) ↔ P env ∨ ∃ c ∈ cs, Q c := by
    intro cs
    induction cs with
    | nil => simp
    | cons c cs ih =>
      intro env
      rw [List.foldl_cons, ih, step]
      simp only [List.mem_cons, exists_eq_or_imp, or_assoc]
  rw [gather_eq, main]
  simp only [List.mem_filter, decide_eq_true_eq, and_assoc]

theorem contains_gather (u : BodyUse) (v : Capture) :
    (d.gather t u).contains v = true ↔ u.env.contains v = true ∨
      ∃ c ∈ d.children, c ∈ u.tokens ∧ ∃ s ∈ (t.envOf c).slots, s.owner ≠ d.id ∧ s.value = v :=
  gather_iff (·.contains v = true) (fun env c => d.contains_forwardOf t env c v) u

theorem mem_slots_gather {u : BodyUse} {s : Slot} (h : s ∈ (d.gather t u).slots) :
    s ∈ u.env.slots ∨
      ∃ c ∈ d.children, c ∈ u.tokens ∧ s ∈ (t.envOf c).slots ∧ s.owner ≠ d.id := by
  have main : ∀ (cs : List ScopeId) (env : Env), s ∈ (cs.foldl (d.forwardOf t) env).slots →
      s ∈ env.slots ∨ ∃ c ∈ cs, s ∈ (t.envOf c).slots ∧ s.owner ≠ d.id := by
    intro cs
    induction cs with
    | nil => exact fun env h => .inl h
    | cons c cs ih =>
      intro env h
      rcases ih _ h with h | ⟨c', hc', h⟩
      · rcases d.forwardOf_cases t env c with e | ⟨e, -⟩
        · rw [e] at h
          rcases Env.mem_slots_forward h with h | h
          · exact .inl h
          · exact .inr ⟨c, List.mem_cons_self, h⟩
        · rw [e] at h
          exact .inl h
      · exact .inr ⟨c', List.mem_cons_of_mem c hc', h⟩
  rw [gather_eq] at h
  rcases main _ _ h with h | ⟨c, hc, h⟩
  · exact .inl h
  · rw [List.mem_filter, decide_eq_true_eq] at hc
    exact .inr ⟨c, hc.1, hc.2, h⟩

/-- The scopes that a body uses are those among the children whose tokens the scan has seen. -/
theorem exists_used_iff {body : Expr} {u : BodyUse} (hu : d.uses body = .ok u)
    (Q : ScopeId → Prop) :
    (∃ c ∈ d.children, c ∈ u.tokens ∧ Q c) ↔ ∃ c, body.Uses c ∧ Q c := by
  refine exists_congr fun c => ?_
  rw [mem_tokens_uses hu, ← and_assoc]
  exact and_congr_left fun _ => and_iff_right_of_imp (mem_children_of_uses hu)

section

variable {body : Expr} {u : BodyUse} (hu : d.uses body = .ok u)

include hu

theorem mem_indices_gather (i : Nat) :
    i ∈ (d.gather t u).indices ↔
      body.ReadsIndex i ∨ ∃ c, body.Uses c ∧ i ∈ (t.envOf c).indices := by
  rw [gather_iff (i ∈ ·.indices) (fun env c => d.mem_indices_forwardOf t env c i) u,
    mem_indices_uses hu, exists_used_iff hu]

theorem mem_names_gather (name : String) :
    name ∈ (d.gather t u).names ↔
      body.ReadsName name ∨ ∃ c, body.Uses c ∧ name ∈ (t.envOf c).names := by
  rw [gather_iff (name ∈ ·.names) (fun env c => d.mem_names_forwardOf t env c name) u,
    mem_names_uses hu, exists_used_iff hu]

end

/-! ## The check of the requests -/

theorem checkRequested_eq_ok_iff (d : Draft) (env : Env) :
    d.checkRequested env = .ok () ↔ env.isSubset d.requested = true := by
  unfold checkRequested
  by_cases h : env.isSubset d.requested = true
  · simp [h]
  · rw [if_neg h]
    simp only [h]
    split
    · simp
    · split <;> simp

end Draft

end ClosureConversion
