import ClosureConversion.Proofs.FrontEnd
import ClosureConversion.Proofs.Liveness

/-!
Tables and open scopes that agree in all that matters.

`ScopeTable.Agree P`: two tables are the same except for the flags of scopes outside `P`, and `P` holds
of every scope within one of which it holds.  Then the same scopes in `P` die when some of them are
retired (`Agree.retireAll`), and the plan for a scope in `P` is the same (`Agree.build`).

`Draft.Le`: two open scopes are the same, except that the second was asked for more.  A body that the
first admits has the same use in the second (`Draft.Le.uses`).
-/

namespace ClosureConversion

/-! ## Tables that differ in flags -/

namespace ScopeTable

/-- The tables are the same except for the flags of scopes that are not in `P`. -/
structure Agree (P : ScopeId → Prop) (t t' : ScopeTable) : Prop where
  size : t.size = t'.size
  get? : ∀ id, (t.get? id).map Scope.revived = (t'.get? id).map Scope.revived
  same : ∀ id, P id → t.get? id = t'.get? id
  child : ∀ id, P id → ∀ c ∈ t.childrenOf id, P c

/-- Retiring scopes changes only flags. -/
theorem map_retireAll {α : Type} {f : Scope → α}
    (hf : ∀ sc alive, f { sc with alive := alive } = f sc) (t : ScopeTable) (roots : List ScopeId)
    (id : ScopeId) : ((t.retireAll roots).get? id).map f = (t.get? id).map f := by
  obtain ⟨alive, h⟩ := get?_retireAll t roots id
  rw [h, Option.map_map]
  exact congrArg (Option.map · _) (funext fun sc => hf sc _)

/-- Where scopes are the same up to `norm`, they look the same to what `norm` does not matter to. -/
theorem elim_get?_eq {α : Type} {norm : Scope → Scope} {t t' : ScopeTable} {id : ScopeId}
    (h : (t.get? id).map norm = (t'.get? id).map norm) (a : α) {f : Scope → α}
    (hf : ∀ sc, f (norm sc) = f sc) : (t.get? id).elim a f = (t'.get? id).elim a f := by
  have hnorm : ∀ o : Option Scope, o.elim a f = (o.map norm).elim a f := by
    intro o
    cases o with
    | none => rfl
    | some sc => exact (hf sc).symm
  rw [hnorm, h, ← hnorm]

/-- A scope gathers the same from children that capture the same. -/
theorem gather_eq {t t' : ScopeTable}
    (h : ∀ id, (t.get? id).elim none Scope.env? = (t'.get? id).elim none Scope.env?) (d : Draft)
    (u : BodyUse) : d.gather t u = d.gather t' u := by
  have hstep : d.forwardOf t = d.forwardOf t' := by
    funext env c
    have hbind : ∀ o : Option Scope, o.bind Scope.env? = o.elim none Scope.env? := by
      intro o
      cases o <;> rfl
    unfold Draft.forwardOf
    rw [hbind, h c, ← hbind]
  rw [Draft.gather_eq, Draft.gather_eq, hstep]

theorem size_retireAll (t : ScopeTable) (roots : List ScopeId) :
    (t.retireAll roots).size = t.size := by
  induction roots generalizing t with
  | nil => rfl
  | cons r roots ih => exact (ih (t.retire r)).trans Std.TreeMap.size_map

theorem childrenOf_retireAll (t : ScopeTable) (roots : List ScopeId) (id : ScopeId) :
    (t.retireAll roots).childrenOf id = t.childrenOf id := by
  induction roots generalizing t with
  | nil => rfl
  | cons r roots ih => exact (ih (t.retire r)).trans (childrenOf_retire t r id)

/-- No path leads from the retired scopes to this one, so it is as it was. -/
theorem get?_retireAll_of_not_path {t : ScopeTable} {roots : List ScopeId} {id : ScopeId}
    (h : ∀ r ∈ roots, ¬ Path t t.living r id) : (t.retireAll roots).get? id = t.get? id := by
  cases hid : t.get? id with
  | none => exact (get?_retireAll_eq_none_iff t roots id).mpr hid
  | some sc =>
    rcases get?_retireAll_cases roots hid with hsame | ⟨-, r, hr, p⟩
    · exact hsame
    · exact absurd p (h r hr)

/-- A path leads through another table, if the scopes in `P` live there too and have their children. -/
theorem Path.transfer {P : ScopeId → Prop} {t t' : ScopeTable}
    (hl : ∀ id, P id → id ∈ t.living → id ∈ t'.living)
    (hc : ∀ id, P id → ∀ c ∈ t.childrenOf id, c ∈ t'.childrenOf id ∧ P c) {a b : ScopeId} (ha : P a)
    (p : Path t t.living a b) : Path t' t'.living a b := by
  induction p with
  | here hmem => exact .here (hl _ ha hmem)
  | step hmem hchild _ ih =>
    obtain ⟨hchild, hP⟩ := hc _ ha _ hchild
    exact .step (hl _ ha hmem) hchild (ih hP)

/-- A scope has the same flag in two tables after the same scopes are retired, if it had before and
the same paths lead to it. -/
theorem exists_flag_retireAll {t t' : ScopeTable} {roots : List ScopeId} {id : ScopeId}
    {sc sc' : Scope} (h : t.get? id = some sc) (h' : t'.get? id = some sc')
    (hf : sc.alive = sc'.alive)
    (hp : ∀ r ∈ roots, Path t t.living r id ↔ Path t' t'.living r id) :
    ∃ alive, (t.retireAll roots).get? id = some { sc with alive := alive } ∧
      (t'.retireAll roots).get? id = some { sc' with alive := alive } := by
  obtain ⟨a, ha⟩ := get?_retireAll_of_get? roots h
  obtain ⟨b, hb⟩ := get?_retireAll_of_get? roots h'
  have hall := alive_retireAll t roots id
  have hall' := alive_retireAll t' roots id
  rw [alive_iff ha, alive_iff h] at hall
  rw [alive_iff hb, alive_iff h'] at hall'
  have hpath : (∀ r ∈ roots, ¬ Path t t.living r id) ↔ ∀ r ∈ roots, ¬ Path t' t'.living r id :=
    forall₂_congr fun r hmem => not_congr (hp r hmem)
  obtain rfl : a = b := Bool.eq_iff_iff.mpr (by rw [hall, hall', hpath, hf])
  exact ⟨a, ha, hb⟩

namespace Agree

variable {P Q : ScopeId → Prop} {t t' : ScopeTable}

theorem symm (h : Agree P t t') : Agree P t' t where
  size := h.size.symm
  get? id := (h.get? id).symm
  same id hid := (h.same id hid).symm
  child id hid := by
    unfold childrenOf
    rw [← h.same id hid]
    exact h.child id hid

theorem childrenOf (h : Agree P t t') (id : ScopeId) : t.childrenOf id = t'.childrenOf id :=
  elim_get?_eq (h.get? id) [] fun _ => rfl

theorem gather (h : Agree P t t') (d : Draft) (u : BodyUse) : d.gather t u = d.gather t' u :=
  gather_eq (fun id => elim_get?_eq (h.get? id) none fun _ => rfl) d u

theorem mono (h : Agree P t t') (hQ : ∀ id, Q id → P id)
    (hc : ∀ id, Q id → ∀ c ∈ t.childrenOf id, Q c) : Agree Q t t' where
  size := h.size
  get? := h.get?
  same id hid := h.same id (hQ id hid)
  child := hc

theorem mem_living (h : Agree P t t') {id : ScopeId} (hid : P id) (hl : id ∈ t.living) :
    id ∈ t'.living := by
  rw [ScopeTable.mem_living, Alive] at hl ⊢
  rwa [← h.same id hid]

/-- From a scope in `P`, the same paths lead downwards. -/
theorem path (h : Agree P t t') {a b : ScopeId} (ha : P a) (p : Path t t.living a b) :
    Path t' t'.living a b :=
  p.transfer (fun _ => h.mem_living) (fun id hid c hc => ⟨h.childrenOf id ▸ hc, h.child id hid c hc⟩)
    ha

/-- The scopes that die are the same. -/
theorem retireAll (h : Agree P t t') {roots : List ScopeId} (hr : ∀ r ∈ roots, P r) :
    Agree P (t.retireAll roots) (t'.retireAll roots) where
  size := by rw [size_retireAll, size_retireAll, h.size]
  get? id := by rw [map_retireAll fun _ _ => rfl, map_retireAll fun _ _ => rfl, h.get?]
  same id hid := by
    cases hx : t.get? id with
    | none =>
      rw [(get?_retireAll_eq_none_iff t roots id).mpr hx,
        (get?_retireAll_eq_none_iff t' roots id).mpr (h.same id hid ▸ hx)]
    | some sc =>
      obtain ⟨a, ha, hb⟩ := exists_flag_retireAll hx (h.same id hid ▸ hx) rfl fun r hmem =>
        ⟨h.path (hr r hmem), h.symm.path (hr r hmem)⟩
      rw [ha, hb]
  child id hid c hc := h.child id hid c (childrenOf_retireAll t roots id ▸ hc)

/-- Different scopes die in the two tables, but none that is in `Q`. -/
theorem lose (h : Agree P t t') {dead dead' : List ScopeId} (hQ : ∀ id, Q id → P id)
    (hc : ∀ id, Q id → ∀ c ∈ t.childrenOf id, Q c)
    (hl : ∀ id, Q id → ∀ r ∈ dead, ¬ Path t t.living r id)
    (hr : ∀ id, Q id → ∀ r ∈ dead', ¬ Path t' t'.living r id) :
    Agree Q (t.retireAll dead) (t'.retireAll dead') where
  size := by rw [size_retireAll, size_retireAll, h.size]
  get? id := by rw [map_retireAll fun _ _ => rfl, map_retireAll fun _ _ => rfl, h.get?]
  same id hid := by
    rw [get?_retireAll_of_not_path (hl id hid), get?_retireAll_of_not_path (hr id hid),
      h.same id (hQ id hid)]
  child id hid c hmem := hc id hid c (childrenOf_retireAll t dead id ▸ hmem)

theorem insert (h : Agree P t t') (sc : Scope) (hc : ∀ c ∈ sc.children, P c) :
    Agree (fun id => id = sc.id ∨ P id) (t.insert sc.id sc) (t'.insert sc.id sc) where
  size := by
    have hmem : t.contains sc.id = t'.contains sc.id := by
      simpa using congrArg Option.isSome (h.get? sc.id)
    rw [Std.TreeMap.size_insert, Std.TreeMap.size_insert, h.size]
    simp only [hmem]
  get? id := by
    rw [get?_insert, get?_insert]
    split
    · rfl
    · exact h.get? id
  same id hid := by
    rw [get?_insert, get?_insert]
    split
    · rfl
    · next hne => exact h.same id (hid.resolve_left (Ne.symm hne))
  child id hid c hmem := by
    obtain ⟨x, hx, hmem⟩ := mem_childrenOf.mp hmem
    rw [get?_insert] at hx
    split at hx
    · obtain rfl := Option.some.inj hx
      exact .inr (hc c hmem)
    · next hne =>
      exact .inr (h.child id (hid.resolve_left (Ne.symm hne)) c (mem_childrenOf.mpr ⟨x, hx, hmem⟩))

theorem replace (h : Agree P t t') {sc : Scope} (hid : P sc.id) (hc : ∀ c ∈ sc.children, P c) :
    Agree P (t.insert sc.id sc) (t'.insert sc.id sc) := by
  have hsame : (fun id => id = sc.id ∨ P id) = P := by
    funext id
    exact propext ⟨fun h => h.elim (fun e => e ▸ hid) fun h => h, .inr⟩
  exact hsame ▸ h.insert sc hc

theorem visit (h : Agree P t t') {depth : Nat}
    (ih : ∀ id, P id → Plan.buildWithin t depth id = Plan.buildWithin t' depth id) {id c : ScopeId}
    (hc : P c) : Plan.visit t depth id c = Plan.visit t' depth id c := by
  unfold Plan.visit
  rw [← h.same c hc, ih c hc]

theorem buildWithin (h : Agree P t t') (depth : Nat) {id : ScopeId} (hid : P id) :
    Plan.buildWithin t depth id = Plan.buildWithin t' depth id := by
  induction depth generalizing id with
  | zero => rfl
  | succ depth ih =>
    cases hx : t.get? id with
    | none =>
      have hx' : t'.get? id = none := h.same id hid ▸ hx
      unfold Plan.buildWithin
      rw [hx, hx']
    | some sc =>
      have hx' : t'.get? id = some sc := h.same id hid ▸ hx
      funext u
      rw [Plan.buildWithin_succ hx, Plan.buildWithin_succ hx']
      have hloop : sc.children.filterMapM (Plan.visit t depth id) =
          sc.children.filterMapM (Plan.visit t' depth id) :=
        Outcome.filterMapM_congr fun c hc =>
          h.visit (fun _ => ih) (h.child id hid c (mem_childrenOf.mpr ⟨sc, hx, hc⟩))
      rw [hloop]

/-- The plan for a scope in `P` is the same. -/
theorem build (h : Agree P t t') {id : ScopeId} (hid : P id) :
    Plan.build t id = Plan.build t' id := by
  unfold Plan.build
  rw [h.size, h.buildWithin _ hid]

end Agree

end ScopeTable

/-! ## Scopes that were asked for more -/

/-- What the first environment has, the second has as well. -/
structure Env.Le (a b : Env) : Prop where
  slot? : ∀ v x, a.slot? v = some x → b.slot? v = some x
  indices : ∀ i ∈ a.indices, i ∈ b.indices

namespace Env.Le

variable {a b : Env}

theorem refl (a : Env) : a.Le a := ⟨fun _ _ h => h, fun _ h => h⟩

theorem contains (h : a.Le b) {v : Capture} (hv : a.contains v = true) : b.contains v = true := by
  cases hx : a.slot? v with
  | none => exact absurd hv ((slot?_eq_none_iff a v).mp hx)
  | some x =>
    obtain ⟨hm, hvx⟩ := mem_of_slot? (h.slot? v x hx)
    exact hvx ▸ contains_of_mem hm

theorem isSubset (h : a.Le b) {env : Env} (hs : env.isSubset a = true) : env.isSubset b = true := by
  rw [isSubset_iff] at hs ⊢
  exact ⟨fun x hx => h.contains (hs.1 x hx), fun i hi => h.indices i (hs.2 i hi)⟩

/-- A further request. -/
theorem more (h : a.Le b) (r : Request) : a.Le (b.request r) where
  slot? v x hx := by
    rw [slot?_request, h.slot? v x hx]
    rfl
  indices i hi := mem_indices_request (h.indices i hi) r

/-- The same request of both, if the second has no other slot for the value. -/
theorem request (h : a.Le b) {r : Request}
    (hr : ∀ x ∈ b.slots, x.value = r.toSlot.value → x = r.toSlot) :
    (a.request r).Le (b.request r) where
  slot? v x hx := by
    rw [slot?_request] at hx ⊢
    cases ha : a.slot? v with
    | some y =>
      rw [ha] at hx
      rw [h.slot? v y ha]
      exact hx
    | none =>
      rw [ha, Option.none_or] at hx
      split at hx
      · next hv =>
        cases hb : b.slot? v with
        | none =>
          rw [if_pos hv]
          exact hx
        | some y =>
          obtain ⟨hmem, hyv⟩ := mem_of_slot? hb
          rw [hr y hmem (hyv.trans hv.symm)]
          exact hx
      · cases hx
  indices i hi := by
    rw [indices_request] at hi ⊢
    cases r with
    | argument index =>
      rcases (SortedSet.mem_insert ..).mp hi with hi | hi
      · exact (SortedSet.mem_insert ..).mpr (.inl hi)
      · exact (SortedSet.mem_insert ..).mpr (.inr (h.indices i hi))
    | loc _ _ _ => exact h.indices i hi
    | var _ _ => exact h.indices i hi
    | slot _ => exact h.indices i hi

end Env.Le

/-- The scopes are the same, except that the second was asked for more. -/
structure Draft.Le (d e : Draft) : Prop where
  eq : e = { d with requested := e.requested }
  requested : d.requested.Le e.requested

namespace Draft.Le

variable {d e : Draft}

theorem refl (d : Draft) : d.Le d := ⟨rfl, .refl _⟩

theorem id (h : d.Le e) : e.id = d.id := by rw [h.eq]

theorem span (h : d.Le e) : e.span = d.span := by rw [h.eq]

theorem building (h : d.Le e) : e.building = d.building := by rw [h.eq]

theorem params (h : d.Le e) : e.params = d.params := by rw [h.eq]

theorem children (h : d.Le e) : e.children = d.children := by rw [h.eq]

theorem param? (h : d.Le e) (name : String) : e.param? name = d.param? name := by
  rw [Draft.param?, h.params, Draft.param?]

theorem unused (h : d.Le e) (u : BodyUse) : e.unused u = d.unused u := by
  rw [Draft.unused, h.children, Draft.unused]

theorem toScope (h : d.Le e) (body : Expr) (eager : Bool) (carried : Option Carried) :
    e.toScope body eager carried = d.toScope body eager carried := by
  rw [Draft.toScope, h.id, h.span, h.params, h.children, Draft.toScope]

theorem gather (h : d.Le e) (t : ScopeTable) (u : BodyUse) : e.gather t u = d.gather t u := by
  rw [Draft.gather, h.id, h.children, Draft.gather]

/-- The same request of both, if the second has no other slot for the value. -/
theorem request (h : d.Le e) {r : Request}
    (hr : ∀ x ∈ e.requested.slots, x.value = r.toSlot.value → x = r.toSlot) :
    (d.request r).Le (e.request r) where
  eq := by
    rw [h.eq]
    rfl
  requested := h.requested.request hr

theorem more (h : d.Le e) (r : Request) : d.Le (e.request r) where
  eq := by
    rw [h.eq]
    rfl
  requested := h.requested.more r

theorem grant (h : d.Le e) {env env' : Env} {v : Capture} (hg : d.grant env v = .ok env') :
    e.grant env v = .ok env' := by
  obtain ⟨slot, hs, he⟩ := Draft.grant_eq_ok_iff.mp hg
  exact Draft.grant_eq_ok_iff.mpr ⟨slot, h.requested.slot? v slot hs, he⟩

/-- A node that the first admits adds the same to the second. -/
theorem see (h : d.Le e) {u u' : BodyUse} {n : Expr} (hs : d.see u n = .ok u') :
    e.see u n = .ok u' := by
  have granted : ∀ {v : Capture} {f : Env → BodyUse},
      (do return f (← d.grant u.env v)) = Except.ok u' →
      (do return f (← e.grant u.env v)) = Except.ok u' := by
    intro v f hg
    cases hv : d.grant u.env v with
    | error b =>
      rw [hv] at hg
      cases hg
    | ok env =>
      rw [h.grant hv]
      rw [hv] at hg
      exact hg
  unfold Draft.see at hs ⊢
  rw [h.id, h.params, h.children]
  split at hs
  · next id =>
    split at hs
    · next hid => rwa [if_pos hid]
    · next hid =>
      rw [if_neg hid]
      exact granted hs
  · exact granted hs
  · exact hs
  · exact granted hs
  · exact hs
  · exact hs
  · exact hs

theorem uses (h : d.Le e) {body : Expr} {u : BodyUse} (hu : d.uses body = .ok u) :
    e.uses body = .ok u := by
  have main : ∀ (ns : List Expr) (u₀ : BodyUse), ns.foldlM d.see u₀ = .ok u →
      ns.foldlM e.see u₀ = .ok u := by
    intro ns
    induction ns with
    | nil => exact fun _ h => h
    | cons n ns ih =>
      intro u₀ hns
      rw [List.foldlM_cons] at hns ⊢
      cases hn : d.see u₀ n with
      | error b =>
        rw [hn] at hns
        cases hns
      | ok u₁ =>
        rw [hn] at hns
        rw [h.see hn]
        exact ih u₁ hns
  exact main body.nodes {} hu

theorem checkRequested (h : d.Le e) {env : Env} (hr : d.checkRequested env = .ok ()) :
    e.checkRequested env = .ok () := by
  rw [Draft.checkRequested_eq_ok_iff] at hr ⊢
  exact h.requested.isSubset hr

end Draft.Le

/-- Two slots for one value are the same, if every variable has one type. -/
theorem Backs.eq_of_value {around : ScopeId → List ScopeId}
    {decl : LocalId → Option (ScopeId × Ty)} {types : String → Ty} {id other : ScopeId} {x y : Slot}
    (hx : Backs around decl id x) (hy : Backs around decl other y)
    (hxt : Session.AtType (fun name ty => ty = types name) x)
    (hyt : Session.AtType (fun name ty => ty = types name) y) (hv : x.value = y.value) : x = y := by
  have ho : x.owner = y.owner := hx.owner_eq hy hv
  have hty : x.ty = y.ty := by
    unfold Backs at hx hy
    rw [hv] at hx
    cases h : y.value with
    | loc v =>
      simp only [h] at hx hy
      rw [hx.1] at hy
      exact (Prod.mk.inj (Option.some.inj hy.1)).2
    | args =>
      simp only [h] at hx hy
      exact hx.2.trans hy.2.symm
    | var name => rw [hxt name (hv.trans h), hyt name h]
  cases x
  cases y
  simp_all

end ClosureConversion
