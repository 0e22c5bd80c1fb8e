import ClosureConversion.Proofs.Step

/-!
The scopes of a session form a forest.

A ghost function `around` tells for every scope the scopes around it, the innermost first.  `Forest`
relates it to the session: an open scope has the open ones below it on the stack around it, a child
has its parent and what is around its parent.  So a scope has one parent, children are younger than
their parents, and a path from a scope downwards can be read off `around` (`around_of_path`).

With that, `Forest` also says which closed scopes are alive: a child is alive iff its parent is and
uses it.  `Session.Nested.effect`: the invariant is kept by whatever happens to a session.
-/

namespace ClosureConversion

/-- The open scopes, the innermost first, with their children. -/
abbrev Outline := List (ScopeId × List ScopeId)

namespace Outline

def ids (os : Outline) : List ScopeId := os.map Prod.fst

/-- Each scope has those behind it around it, and is younger than they are. -/
def Nests (around : ScopeId → List ScopeId) : Outline → Prop
  | [] => True
  | o :: os => around o.1 = ids os ∧ (∀ id ∈ ids os, id < o.1) ∧ Nests around os

theorem Nests.congr {around around' : ScopeId → List ScopeId} {os : Outline}
    (h : Nests around os) (he : ∀ o ∈ os, around' o.1 = around o.1) : Nests around' os := by
  induction os with
  | nil => trivial
  | cons o os ih =>
    rw [List.forall_mem_cons] at he
    exact ⟨he.1.trans h.1, h.2.1, ih h.2.2 he.2⟩

/-- A scope further out is around every scope before it. -/
theorem Nests.mem_around {around : ScopeId → List ScopeId} {inner outer : Outline}
    {o x : ScopeId × List ScopeId} (h : Nests around (inner ++ o :: outer)) (hx : x ∈ inner) :
    o.1 ∈ around x.1 := by
  induction inner with
  | nil => cases hx
  | cons i inner ih =>
    rcases List.mem_cons.mp hx with rfl | hx
    · rw [h.1]
      simp [ids]
    · exact ih h.2.2 hx

end Outline

structure Forest (around : ScopeId → List ScopeId) (os : Outline) (t : ScopeTable)
    (roots : List ScopeId) (fresh : ScopeId) : Prop where
  positive : rootScope < fresh
  nests : os.Nests around
  opened : ∀ o ∈ os, rootScope < o.1 ∧ o.1 < fresh ∧ t.get? o.1 = none
  closed : ∀ id sc, t.get? id = some sc → sc.id = id ∧ rootScope < id ∧ id < fresh
  openChild : ∀ o ∈ os, ∀ c ∈ o.2, t.Alive c ∧ o.1 < c ∧ around c = o.1 :: around o.1
  closedChild : ∀ id sc, t.get? id = some sc → ∀ c ∈ sc.children,
    (∃ child, t.get? c = some child) ∧ id < c ∧ around c = id :: around id
  aliveChild : ∀ id sc, t.get? id = some sc → ∀ c ∈ sc.children,
    (t.Alive c ↔ sc.alive = true ∧ sc.body.Uses c)
  openNodup : ∀ o ∈ os, o.2.Nodup
  closedNodup : ∀ id sc, t.get? id = some sc → sc.children.Nodup
  root : ∀ r ∈ roots, t.Alive r ∧ around r = []

namespace Forest

open ScopeTable

variable {around : ScopeId → List ScopeId} {os : Outline} {t : ScopeTable} {roots : List ScopeId}
  {fresh : ScopeId}

/-- What is around the first scope of a path is around its last scope too. -/
theorem around_of_path (h : Forest around os t roots fresh) {living : List ScopeId} {a b : ScopeId}
    (p : Path t living a b) : (a :: around a) <:+ (b :: around b) := by
  induction p with
  | here _ => exact List.suffix_rfl
  | @step id child last _ hc _ ih =>
    obtain ⟨sc, hsc, hc⟩ := mem_childrenOf.mp hc
    obtain ⟨-, -, ha⟩ := h.closedChild id sc hsc child hc
    rw [ha] at ih
    exact (List.suffix_cons child _).trans ih

theorem mem_of_path (h : Forest around os t roots fresh) {living : List ScopeId} {a b : ScopeId}
    (p : Path t living a b) : a = b ∨ a ∈ around b := by
  have := (h.around_of_path p).subset List.mem_cons_self
  simpa using this

/-- An open scope is no closed one. -/
theorem open_ne_closed (h : Forest around os t roots fresh) {o : ScopeId × List ScopeId}
    (ho : o ∈ os) {id : ScopeId} {sc : Scope} (hsc : t.get? id = some sc) : o.1 ≠ id := by
  rintro rfl
  rw [(h.opened o ho).2.2] at hsc
  cases hsc

/-! ## Opening and leaving a scope -/

theorem new : Forest (fun _ => []) [] ∅ [] (rootScope + 1) where
  positive := Nat.lt_succ_self _
  nests := trivial
  opened := by simp
  closed := by simp
  openChild := by simp
  closedChild := by simp
  aliveChild := by simp
  openNodup := by simp
  closedNodup := by simp
  root := by simp

theorem enter (h : Forest around os t roots fresh) :
    Forest (fun id => if id = fresh then os.ids else around id) ((fresh, []) :: os) t roots
      (fresh + 1) := by
  have old : ∀ id, id < fresh →
      (if id = fresh then os.ids else around id) = around id := by
    intro id hid
    exact if_neg (Nat.ne_of_lt hid)
  have alive : ∀ c, t.Alive c → c < fresh := by
    intro c hc
    obtain ⟨sc, hsc⟩ := hc.get?
    exact (h.closed c sc hsc).2.2
  constructor
  case positive => exact Nat.lt_succ_of_lt h.positive
  case nests =>
    refine ⟨if_pos rfl, ?_, h.nests.congr fun o ho => old o.1 (h.opened o ho).2.1⟩
    intro id hid
    obtain ⟨o, ho, rfl⟩ := List.mem_map.mp hid
    exact (h.opened o ho).2.1
  case opened =>
    rw [List.forall_mem_cons]
    refine ⟨⟨h.positive, Nat.lt_succ_self _, ?_⟩, fun o ho => ?_⟩
    · cases hsc : t.get? fresh with
      | none => rfl
      | some sc => exact absurd (h.closed fresh sc hsc).2.2 (Nat.lt_irrefl _)
    · have := h.opened o ho
      exact ⟨this.1, Nat.lt_succ_of_lt this.2.1, this.2.2⟩
  case closed =>
    intro id sc hsc
    have := h.closed id sc hsc
    exact ⟨this.1, this.2.1, Nat.lt_succ_of_lt this.2.2⟩
  case openChild =>
    rw [List.forall_mem_cons]
    refine ⟨by simp, fun o ho c hc => ?_⟩
    obtain ⟨ha, hlt, hr⟩ := h.openChild o ho c hc
    rw [old c (alive c ha), old o.1 (h.opened o ho).2.1]
    exact ⟨ha, hlt, hr⟩
  case closedChild =>
    intro id sc hsc c hc
    obtain ⟨⟨child, hch⟩, hlt, hr⟩ := h.closedChild id sc hsc c hc
    rw [old c (h.closed c child hch).2.2, old id (h.closed id sc hsc).2.2]
    exact ⟨⟨child, hch⟩, hlt, hr⟩
  case aliveChild => exact h.aliveChild
  case openNodup => exact List.forall_mem_cons.mpr ⟨List.nodup_nil, h.openNodup⟩
  case closedNodup => exact h.closedNodup
  case root =>
    intro r hr
    obtain ⟨ha, he⟩ := h.root r hr
    rw [old r (alive r ha)]
    exact ⟨ha, he⟩

theorem pop {o : ScopeId × List ScopeId} (h : Forest around (o :: os) t roots fresh) :
    Forest around os t roots fresh where
  positive := h.positive
  nests := h.nests.2.2
  opened := (List.forall_mem_cons.mp h.opened).2
  closed := h.closed
  openChild := (List.forall_mem_cons.mp h.openChild).2
  closedChild := h.closedChild
  aliveChild := h.aliveChild
  openNodup := (List.forall_mem_cons.mp h.openNodup).2
  closedNodup := h.closedNodup
  root := h.root

/-! ## Retiring children of the innermost scope -/

/-- An open scope and what is around it are open. -/
theorem mem_ids_of_around (h : Forest around os t roots fresh) {o : ScopeId × List ScopeId}
    (ho : o ∈ os) {id : ScopeId} (hid : id ∈ o.1 :: around o.1) : id ∈ os.ids := by
  have nests := h.nests
  clear h
  induction os with
  | nil => cases ho
  | cons x xs ih =>
    rcases List.mem_cons.mp ho with rfl | ho
    · rwa [nests.1] at hid
    · exact List.mem_cons_of_mem x.1 (ih ho nests.2.2)

theorem get?_of_mem_ids (h : Forest around os t roots fresh) {id : ScopeId} (hid : id ∈ os.ids) :
    t.get? id = none := by
  obtain ⟨o, ho, rfl⟩ := List.mem_map.mp hid
  exact (h.opened o ho).2.2

section

variable {id : ScopeId} {cs dead : List ScopeId}

/-- A path from a child of the innermost scope to a child of an open scope is empty. -/
theorem eq_of_path_openChild (h : Forest around ((id, cs) :: os) t roots fresh) {r c : ScopeId}
    (hr : r ∈ cs) {o : ScopeId × List ScopeId} (ho : o ∈ (id, cs) :: os) (hc : c ∈ o.2)
    {living : List ScopeId} (p : Path t living r c) : r = c ∧ o.1 = id := by
  obtain ⟨hrl, -, har⟩ := h.openChild (id, cs) List.mem_cons_self r hr
  obtain ⟨-, -, hac⟩ := h.openChild o ho c hc
  rcases h.mem_of_path p with rfl | hmem
  · rw [har] at hac
    exact ⟨rfl, (List.cons.inj hac).1.symm⟩
  · -- the scopes around a child of an open scope are open, but `r` is closed
    rw [hac] at hmem
    obtain ⟨sc, hsc⟩ := hrl.get?
    rw [h.get?_of_mem_ids (h.mem_ids_of_around ho hmem)] at hsc
    cases hsc

theorem alive_prune_child (h : Forest around ((id, cs) :: os) t roots fresh)
    (hd : ∀ c ∈ dead, c ∈ cs) {c : ScopeId} (hc : c ∈ cs) :
    (t.retireAll dead).Alive c ↔ c ∉ dead := by
  have ha := (h.openChild (id, cs) List.mem_cons_self c hc).1
  rw [alive_retireAll]
  constructor
  · rintro ⟨-, hp⟩ hmem
    exact hp c hmem (.here ((mem_living t c).mpr ha))
  · intro hmem
    refine ⟨ha, fun r hr p => hmem ?_⟩
    exact (h.eq_of_path_openChild (hd r hr) List.mem_cons_self hc p).1 ▸ hr

theorem prune (h : Forest around ((id, cs) :: os) t roots fresh) (hd : ∀ c ∈ dead, c ∈ cs) :
    Forest around os (t.retireAll dead) roots fresh := by
  constructor
  case positive => exact h.positive
  case nests => exact h.nests.2.2
  case opened =>
    intro o ho
    have := h.opened o (List.mem_cons_of_mem _ ho)
    exact ⟨this.1, this.2.1, (get?_retireAll_eq_none_iff t dead o.1).mpr this.2.2⟩
  case closed =>
    intro k sc' hk
    obtain ⟨sc, hsc, e⟩ := get?_of_retireAll hk
    rw [e]
    exact h.closed k sc hsc
  case openChild =>
    intro o ho c hc
    obtain ⟨ha, hlt, hr⟩ := h.openChild o (List.mem_cons_of_mem _ ho) c hc
    refine ⟨(alive_retireAll t dead c).mpr ⟨ha, fun r hrd p => ?_⟩, hlt, hr⟩
    have hoid := (h.eq_of_path_openChild (hd r hrd) (List.mem_cons_of_mem _ ho) hc p).2
    have hlt := h.nests.2.1 o.1 (List.mem_map_of_mem ho)
    exact absurd hoid (Nat.ne_of_lt hlt)
  case closedChild =>
    intro k sc' hk c hc
    obtain ⟨sc, hsc, e⟩ := get?_of_retireAll hk
    rw [e] at hc
    obtain ⟨⟨child, hchild⟩, hlt, hr⟩ := h.closedChild k sc hsc c hc
    obtain ⟨alive, hchild'⟩ := get?_retireAll_of_get? dead hchild
    exact ⟨⟨_, hchild'⟩, hlt, hr⟩
  case aliveChild =>
    intro k sc' hk c hc
    obtain ⟨sc, hsc, e⟩ := get?_of_retireAll hk
    have hbody : sc'.body = sc.body := by rw [e]
    rw [e] at hc
    have hkc : c ∈ t.childrenOf k := mem_childrenOf.mpr ⟨sc, hsc, hc⟩
    have hold := h.aliveChild k sc hsc c hc
    rw [← alive_iff hk, hbody, alive_retireAll, alive_retireAll]
    rw [← alive_iff hsc] at hold
    constructor
    · rintro ⟨ha, hp⟩
      obtain ⟨hak, hu⟩ := hold.mp ha
      refine ⟨⟨hak, fun r hr p => hp r hr ?_⟩, hu⟩
      exact p.trans (.step ((mem_living t k).mpr hak) hkc (.here ((mem_living t c).mpr ha)))
    · rintro ⟨⟨hak, hp⟩, hu⟩
      refine ⟨hold.mpr ⟨hak, hu⟩, fun r hr p => ?_⟩
      have hck := (h.closedChild k sc hsc c hc).2.2
      rcases p.last_step with rfl | ⟨q, pq, hq⟩
      · -- a retired root is a child of the innermost scope, which is not closed
        have hcr := (h.openChild (id, cs) List.mem_cons_self r (hd r hr)).2.2
        rw [hck] at hcr
        exact h.open_ne_closed List.mem_cons_self hsc (List.cons.inj hcr).1.symm
      · obtain ⟨qs, hqs, hq⟩ := mem_childrenOf.mp hq
        have hcq := (h.closedChild q qs hqs c hq).2.2
        rw [hck] at hcq
        exact hp r hr ((List.cons.inj hcq).1 ▸ pq)
  case openNodup => exact (List.forall_mem_cons.mp h.openNodup).2
  case closedNodup =>
    intro k sc' hk
    obtain ⟨sc, hsc, e⟩ := get?_of_retireAll hk
    rw [e]
    exact h.closedNodup k sc hsc
  case root =>
    intro r hr
    obtain ⟨ha, he⟩ := h.root r hr
    refine ⟨(alive_retireAll t dead r).mpr ⟨ha, fun x hx p => ?_⟩, he⟩
    have hax := (h.openChild (id, cs) List.mem_cons_self x (hd x hx)).2.2
    rcases h.mem_of_path p with rfl | hmem
    · rw [he] at hax
      cases hax
    · rw [he] at hmem
      cases hmem

/-! ## Recording the innermost scope -/

theorem record (h : Forest around ((id, cs) :: os) t roots fresh) (hd : ∀ c ∈ dead, c ∈ cs)
    {sc : Scope} {t' : ScopeTable} (hid : sc.id = id) (hcs : sc.children = cs)
    (hal : sc.alive = true) (hu : ∀ c ∈ cs, c ∉ dead ↔ sc.body.Uses c)
    (ht : ∀ k, t'.get? k = if id = k then some sc else (t.retireAll dead).get? k) :
    Forest around os t' roots fresh := by
  have hp := h.prune hd
  obtain ⟨hpos, hlt, hnone⟩ := h.opened (id, cs) List.mem_cons_self
  have hnew : (t.retireAll dead).get? id = none :=
    (get?_retireAll_eq_none_iff t dead id).mpr hnone
  have hold : ∀ k x, t'.get? k = some x →
      k = id ∧ x = sc ∨ id ≠ k ∧ (t.retireAll dead).get? k = some x := by
    intro k x hk
    rw [ht k] at hk
    split at hk
    · next e => exact .inl ⟨e.symm, (Option.some.inj hk).symm⟩
    · next e => exact .inr ⟨e, hk⟩
  have hkept : ∀ k x, (t.retireAll dead).get? k = some x → t'.get? k = some x := by
    intro k x hk
    rw [ht k, if_neg]
    · exact hk
    · rintro rfl
      rw [hnew] at hk
      cases hk
  have halive : ∀ k, id ≠ k → (t'.Alive k ↔ (t.retireAll dead).Alive k) := by
    intro k hk
    unfold Alive
    rw [ht k, if_neg hk]
  have hchild : ∀ k, (t.retireAll dead).Alive k → t'.Alive k := by
    rintro k ⟨x, hx, ha⟩
    exact ⟨x, hkept k x hx, ha⟩
  constructor
  case positive => exact hp.positive
  case nests => exact hp.nests
  case opened =>
    intro o ho
    obtain ⟨h1, h2, h3⟩ := hp.opened o ho
    refine ⟨h1, h2, ?_⟩
    rw [ht o.1, if_neg]
    · exact h3
    · have := h.nests.2.1 o.1 (List.mem_map_of_mem ho)
      exact Nat.ne_of_gt this
  case closed =>
    intro k x hk
    rcases hold k x hk with ⟨rfl, rfl⟩ | ⟨-, hk⟩
    · exact ⟨hid, hpos, hlt⟩
    · exact hp.closed k x hk
  case openChild =>
    intro o ho c hc
    obtain ⟨ha, h2⟩ := hp.openChild o ho c hc
    exact ⟨hchild c ha, h2⟩
  case closedChild =>
    intro k x hk c hc
    rcases hold k x hk with ⟨rfl, rfl⟩ | ⟨-, hk⟩
    · rw [hcs] at hc
      obtain ⟨ha, hlt, har⟩ := h.openChild (k, cs) List.mem_cons_self c hc
      obtain ⟨old, ho⟩ := ha.get?
      obtain ⟨alive, ho⟩ := get?_retireAll_of_get? dead ho
      exact ⟨⟨_, hkept c _ ho⟩, hlt, har⟩
    · obtain ⟨⟨child, hc'⟩, h2⟩ := hp.closedChild k x hk c hc
      exact ⟨⟨child, hkept c child hc'⟩, h2⟩
  case aliveChild =>
    intro k x hk c hc
    rcases hold k x hk with ⟨rfl, rfl⟩ | ⟨-, hk⟩
    · rw [hcs] at hc
      have hlt := (h.openChild (k, cs) List.mem_cons_self c hc).2.1
      rw [halive c (Nat.ne_of_lt hlt), h.alive_prune_child hd hc, hu c hc]
      exact (and_iff_right hal).symm
    · obtain ⟨⟨child, hc'⟩, hlt, -⟩ := hp.closedChild k x hk c hc
      rw [halive c, hp.aliveChild k x hk c hc]
      rintro rfl
      rw [hnew] at hc'
      cases hc'
  case openNodup => exact hp.openNodup
  case closedNodup =>
    intro k x hk
    rcases hold k x hk with ⟨rfl, rfl⟩ | ⟨-, hk⟩
    · exact hcs ▸ h.openNodup _ List.mem_cons_self
    · exact hp.closedNodup k x hk
  case root =>
    intro r hr
    obtain ⟨ha, he⟩ := hp.root r hr
    exact ⟨hchild r ha, he⟩

end

/-! ## Attaching a closed scope -/

theorem attach_child {o : ScopeId × List ScopeId} (h : Forest around (o :: os) t roots fresh)
    {id : ScopeId} (ha : t.Alive id) (hlt : o.1 < id) (har : around id = o.1 :: os.ids)
    (hnew : id ∉ o.2) :
    Forest around ((o.1, o.2 ++ [id]) :: os) t roots fresh where
  positive := h.positive
  nests := h.nests
  opened := by
    have := List.forall_mem_cons.mp h.opened
    exact List.forall_mem_cons.mpr this
  closed := h.closed
  openChild := by
    obtain ⟨h1, h2⟩ := List.forall_mem_cons.mp h.openChild
    refine List.forall_mem_cons.mpr ⟨fun c hc => ?_, h2⟩
    rcases List.mem_append.mp hc with hc | hc
    · exact h1 c hc
    · obtain rfl := List.mem_singleton.mp hc
      exact ⟨ha, hlt, har.trans (congrArg _ h.nests.1.symm)⟩
  closedChild := h.closedChild
  aliveChild := h.aliveChild
  openNodup := by
    obtain ⟨h1, h2⟩ := List.forall_mem_cons.mp h.openNodup
    refine List.forall_mem_cons.mpr ⟨List.nodup_append.mpr ⟨h1, by simp, ?_⟩, h2⟩
    rintro c hc _ hid rfl
    exact hnew (List.mem_singleton.mp hid ▸ hc)
  closedNodup := h.closedNodup
  root := h.root

theorem attach_root (h : Forest around [] t roots fresh) {id : ScopeId} (ha : t.Alive id)
    (har : around id = []) : Forest around [] t (roots ++ [id]) fresh where
  positive := h.positive
  nests := h.nests
  opened := h.opened
  closed := h.closed
  openChild := h.openChild
  closedChild := h.closedChild
  aliveChild := h.aliveChild
  openNodup := h.openNodup
  closedNodup := h.closedNodup
  root := by
    intro r hr
    rcases List.mem_append.mp hr with hr | hr
    · exact h.root r hr
    · obtain rfl := List.mem_singleton.mp hr
      exact ⟨ha, har⟩

/-- Children are younger than their parents and no scope is younger than the last one, so a property
of closed scopes may be proved from the children up. -/
theorem closed_induction (h : Forest around os t roots fresh) {P : ScopeId → Scope → Prop}
    (step : ∀ id sc, t.get? id = some sc →
      (∀ c ∈ sc.children, ∀ child, t.get? c = some child → P c child) → P id sc)
    {id : ScopeId} {sc : Scope} (hsc : t.get? id = some sc) : P id sc := by
  have main : ∀ n id sc, t.get? id = some sc → fresh - id ≤ n → P id sc := by
    intro n
    induction n with
    | zero =>
      intro id sc hsc hle
      have hlt : id < fresh := (h.closed id sc hsc).2.2
      exact absurd hle (Nat.not_le_of_gt (Nat.sub_pos_of_lt hlt))
    | succ n ih =>
      intro id sc hsc hle
      refine step id sc hsc fun c hc child hchild => ih c child hchild ?_
      have hlt : id < c := (h.closedChild id sc hsc c hc).2.1
      have hf : id < fresh := (h.closed id sc hsc).2.2
      simp only [ScopeId] at *
      omega
  exact main (fresh - id) id sc hsc (Nat.le_refl _)

end Forest

/-! ## Sessions -/

namespace Session

def outline (s : Session) : Outline := s.stack.map fun d => (d.id, d.children)

/-- The scopes of the session form a forest, with these scopes around each. -/
def Nested (around : ScopeId → List ScopeId) (s : Session) : Prop :=
  Forest around s.outline s.closed s.roots s.freshScope

theorem nested_new : Nested (fun _ => []) {} := .new

variable {around : ScopeId → List ScopeId} {s s' : Session} {d : Draft} {outer : List Draft}
  {u : BodyUse} {sc : Scope}

theorem Records.alive_self (r : s.Records d outer u sc s') : s'.closed.Alive d.id :=
  ⟨sc, r.get?_self, r.alive⟩

theorem unused_subset (d : Draft) (u : BodyUse) : ∀ c ∈ d.unused u, c ∈ d.children := by
  intro c hc
  exact (List.mem_filter.mp hc).1

theorem not_mem_unused_iff {body : Expr} (hu : d.uses body = .ok u) {c : ScopeId}
    (hc : c ∈ d.children) : c ∉ d.unused u ↔ body.Uses c := by
  rw [← Draft.mem_tokens_uses hu]
  simp [Draft.unused, hc]

theorem Nested.of_cons (h : s.Nested around) (hs : s.stack = d :: outer) :
    Forest around ((d.id, d.children) :: outer.map fun d => (d.id, d.children)) s.closed s.roots
      s.freshScope := by
  have ho : s.outline = (d.id, d.children) :: outer.map fun d => (d.id, d.children) := by
    unfold outline
    rw [hs]
    rfl
  exact ho ▸ h

theorem Nested.records (h : s.Nested around) (r : s.Records d outer u sc s') :
    s'.Nested around := by
  have hf := (h.of_cons r.stack_eq).record (unused_subset d u) r.id r.children r.alive
    (fun c hc => not_mem_unused_iff r.uses hc) r.get?
  unfold Nested outline
  rw [r.stack, r.roots, r.freshScope]
  exact hf

theorem Nested.attach (h : s.Nested around) (r : s.Records d outer u sc s') :
    (s'.attach d.id).Nested around := by
  have hs := h.of_cons r.stack_eq
  have hf := h.records r
  cases outer with
  | nil =>
    rw [attach_of_nil r.stack]
    unfold Nested outline at hf ⊢
    rw [r.stack] at hf ⊢
    exact hf.attach_root r.alive_self hs.nests.1
  | cons o outer =>
    rw [attach_of_cons r.stack]
    have hf := hf.of_cons r.stack
    refine hf.attach_child r.alive_self (hs.nests.2.1 o.id List.mem_cons_self) hs.nests.1 ?_
    -- the children of the outer scope were closed before, this one was open
    intro hmem
    have ho : (o.id, o.children) ∈ (d.id, d.children) :: (o :: outer).map fun d => (d.id, d.children) :=
      List.mem_cons_of_mem _ List.mem_cons_self
    obtain ⟨x, hx⟩ := (hs.openChild _ ho d.id hmem).1.get?
    exact hs.open_ne_closed List.mem_cons_self hx rfl

/-- The forest grows along every effect; what is around a scope never changes. -/
theorem Nested.effect (h : s.Nested around) (e : s.Effect s') :
    ∃ around', (∀ id, id < s.freshScope → around' id = around id) ∧ s'.Nested around' := by
  cases e with
  | none => exact ⟨around, fun _ _ => rfl, h⟩
  | enter span =>
    refine ⟨fun id => if id = s.freshScope then s.outline.ids else around id, ?_, Forest.enter h⟩
    intro id hid
    exact if_neg (Nat.ne_of_lt hid)
  | declare hs _ =>
    have hf := h.of_cons hs
    exact ⟨around, fun _ _ => rfl, hf⟩
  | begin hs =>
    have hf := h.of_cons hs
    exact ⟨around, fun _ _ => rfl, hf⟩
  | @request inner outer r hs _ =>
    refine ⟨around, fun _ _ => rfl, ?_⟩
    have ho : s.outline = (inner.map (·.request r) ++ outer).map fun d => (d.id, d.children) := by
      unfold outline
      rw [hs, List.map_append, List.map_append, List.map_map]
      rfl
    unfold Nested at h
    rw [ho] at h
    exact h
  | pop hs => exact ⟨around, fun _ _ => rfl, (h.of_cons hs).pop⟩
  | @prune d outer body u hs _ =>
    exact ⟨around, fun _ _ => rfl, (h.of_cons hs).prune (unused_subset d u)⟩
  | abandon r => exact ⟨around, fun _ _ => rfl, h.records r⟩
  | attach r => exact ⟨around, fun _ _ => rfl, h.attach r⟩

end Session

end ClosureConversion
