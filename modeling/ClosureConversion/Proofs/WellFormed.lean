import ClosureConversion.Proofs.FreeValues
import ClosureConversion.Proofs.FrontEnd

/-!
The structural invariant of sessions.

`Session.WellFormed` says how the scopes and parameters of a session fit together: which scopes are
being built, how ids are ordered, that no scope is listed twice, that no parameter id and no name
within a scope is used twice, and that every captured parameter belongs to a scope around.

`wellFormed_of_reachable`: it holds after every command of every run, also after those that fail, if
ids are numbers without bound.  What it comes to when the counters are 32-bit words is in
`ClosureConversion.Proofs.Counters`.  What the earlier invariants do not say, `Tidy` does; it depends on
why a command was admitted, so it is proved against `Session.Step` and not against `Session.Effect`.
-/

namespace ClosureConversion

/-- Lists under different keys, each without repeats, of which no two share a member. -/
theorem nodup_flatMap_of_keys {α β : Type} {l : List (α × List β)} (keys : (l.map Prod.fst).Nodup)
    (each : ∀ p ∈ l, p.2.Nodup) (one : ∀ p ∈ l, ∀ q ∈ l, ∀ c ∈ p.2, c ∈ q.2 → p.1 = q.1) :
    (l.flatMap Prod.snd).Nodup := by
  induction l with
  | nil => exact List.nodup_nil
  | cons p l ih =>
    rw [List.map_cons, List.nodup_cons] at keys
    rw [List.forall_mem_cons] at each
    have rest := ih keys.2 each.2 fun a ha b hb =>
      one a (List.mem_cons_of_mem p ha) b (List.mem_cons_of_mem p hb)
    rw [List.flatMap_cons, List.nodup_append]
    refine ⟨each.1, rest, ?_⟩
    rintro c hc _ hmem rfl
    obtain ⟨q, hq, hcq⟩ := List.mem_flatMap.mp hmem
    have e := one p List.mem_cons_self q (List.mem_cons_of_mem p hq) c hc hcq
    exact keys.1 (e ▸ List.mem_map_of_mem hq)

namespace Session

/-! ## The invariant -/

/-- Every scope, open or closed, with what it has of some sort. -/
def scopes {α : Type} (s : Session) (ofDraft : Draft → α) (ofScope : Scope → α) :
    List (ScopeId × α) :=
  s.stack.map (fun d => (d.id, ofDraft d)) ++ s.closed.toList.map fun p => (p.1, ofScope p.2)

/-- Every mention of a closed scope: as a child of a scope, or at the top. -/
def mentions (s : Session) : List ScopeId :=
  (s.scopes Draft.children Scope.children).flatMap Prod.snd ++ s.roots

/-- The ids of all parameters, those that receive carriers included. -/
def locals (s : Session) : List LocalId :=
  (s.scopes (·.params.map Param.id) (·.signature.map Param.id)).flatMap Prod.snd

/-- The first scope is strictly around the second. -/
inductive Encloses (s : Session) : ScopeId → ScopeId → Prop
  | stacked {d o : Draft} : [d, o].Sublist s.stack → Encloses s o.id d.id
  | openChild {d : Draft} {c : ScopeId} : d ∈ s.stack → c ∈ d.children → Encloses s d.id c
  | closedChild {p c : ScopeId} {sc : Scope} :
      s.closed.get? p = some sc → c ∈ sc.children → Encloses s p c
  | trans {a b c : ScopeId} : Encloses s a b → Encloses s b c → Encloses s a c

/-- If the slot of the scope `id` is for a parameter, its owner is a scope strictly around `id` that
declares the parameter with the slot's type. -/
def Sourced (s : Session) (id : ScopeId) (x : Slot) : Prop :=
  ∀ v, x.value = .loc v → s.Encloses x.owner id ∧
    ∃ params, s.parameters? x.owner = some params ∧ ∃ p ∈ params, p.id = v ∧ p.ty = x.ty

structure WellFormed (s : Session) : Prop where
  /-- Only the innermost scope may still be declaring parameters. -/
  building : ∀ d ∈ s.stack.tail, d.building = true
  opened : ∀ d ∈ s.stack, 1 ≤ d.id ∧ d.id < s.freshScope ∧ s.closed.get? d.id = none
  closed : ∀ id sc, s.closed.get? id = some sc → sc.id = id ∧ 1 ≤ id ∧ id < s.freshScope
  /-- The innermost scope comes first and has the greatest id. -/
  stacked : (s.stack.map Draft.id).Pairwise (· > ·)
  mentioned : s.mentions.Nodup
  openChild : ∀ d ∈ s.stack, ∀ c ∈ d.children, d.id < c
  closedChild : ∀ id sc, s.closed.get? id = some sc → ∀ c ∈ sc.children, id < c
  distinct : s.locals.Nodup
  fresh : ∀ v ∈ s.locals, v < s.freshLocal
  openNames : ∀ d ∈ s.stack, (d.params.map Param.name).Nodup
  closedNames : ∀ id sc, s.closed.get? id = some sc → (sc.params.map Param.name).Nodup
  requested : ∀ d ∈ s.stack, ∀ x ∈ d.requested.slots, s.Sourced d.id x
  captured : ∀ id sc, s.Attached id → s.closed.get? id = some sc →
    ∀ x ∈ sc.env.slots, s.Sourced id x

/-! ## What commands admit -/

/-- Phases and names on a stack of open scopes. -/
structure Staged (ds : List Draft) : Prop where
  building : ∀ d ∈ ds.tail, d.building = true
  names : ∀ d ∈ ds, (d.params.map Param.name).Nodup

namespace Staged

variable {s s' : Session} {σ σ' : Store} {ds es : List Draft} {d : Draft}

/-- Only the phases and the parameters matter. -/
theorem congr (h : Staged ds)
    (he : es.map (fun d => (d.building, d.params)) = ds.map fun d => (d.building, d.params)) :
    Staged es where
  building e hmem := by
    have ht := congrArg List.tail he
    rw [← List.map_tail, ← List.map_tail] at ht
    have hkey := ht ▸ List.mem_map_of_mem (f := fun d : Draft => (d.building, d.params)) hmem
    obtain ⟨d, hd, hk⟩ := List.mem_map.mp hkey
    exact (Prod.mk.inj hk).1.symm.trans (h.building d hd)
  names e hmem := by
    have hkey := he ▸ List.mem_map_of_mem (f := fun d : Draft => (d.building, d.params)) hmem
    obtain ⟨d, hd, hk⟩ := List.mem_map.mp hkey
    rw [← (Prod.mk.inj hk).2]
    exact h.names d hd

theorem tail (h : Staged (d :: ds)) : Staged ds where
  building e he := h.building e (List.mem_of_mem_tail he)
  names e he := h.names e (List.mem_cons_of_mem d he)

/-- The innermost scope may be in either phase. -/
theorem cons (h : Staged (d :: ds)) {e : Draft} (he : (e.params.map Param.name).Nodup) :
    Staged (e :: ds) where
  building := h.building
  names := List.forall_mem_cons.mpr ⟨he, h.tail.names⟩

theorem request {inner outer : List Draft} (h : Staged (inner ++ outer)) (r : Request) :
    Staged (inner.map (·.request r) ++ outer) := by
  refine h.congr ?_
  rw [List.map_append, List.map_append, List.map_map]
  rfl

theorem requestAll (h : Staged ds) (r : Request) : Staged (ds.map (·.request r)) := by
  rw [← List.append_nil ds] at h
  rw [← List.append_nil (ds.map _)]
  exact h.request r

theorem attach (h : Staged s.stack) (id : ScopeId) : Staged (s.attach id).stack := by
  refine h.congr ?_
  cases hs : s.stack with
  | nil => rw [attach_of_nil hs, hs]
  | cons d outer =>
    rw [attach_of_cons hs]
    rfl

theorem closing {body : Expr} {eager : Bool} {r : Except ConversionError Expr}
    (hc : s.Closing body eager σ r s' σ') (h : Staged s.stack) : Staged s'.stack := by
  have popped : ∀ {d outer}, s.building = .ok (d, outer) → Staged outer := by
    intro d outer hb
    rw [(building_eq_ok_iff.mp hb).1] at h
    exact h.tail
  cases hc with
  | refused _ => exact h
  | rejected hb _ => exact popped hb
  | unrequested hb _ _ => exact popped hb
  | uncarried hb _ _ _ => exact popped hb
  | uncompiled acc _ _ => exact popped acc.building
  | compiled acc _ _ => exact attach (popped acc.building) _
  | deferred acc _ => exact attach (popped acc.building) _

theorem step {c : Command} {a : Except ConversionError Answer} (hs : s.Step σ c a s' σ')
    (h : Staged s.stack) : Staged s'.stack := by
  cases hs with
  | failed _ => exact h
  | entered hb =>
    refine ⟨fun d hd => ?_, List.forall_mem_cons.mpr ⟨List.nodup_nil, h.names⟩⟩
    -- the scope that was innermost may no longer declare
    cases hs : s.stack with
    | nil => exact absurd (hs ▸ hd) List.not_mem_nil
    | cons e outer =>
      rcases List.mem_cons.mp (hs ▸ hd) with rfl | hd
      · exact hb d (by rw [hs]; rfl)
      · exact h.building d (by rw [hs]; exact hd)
  | @declared d outer ty name _ hs _ hfree =>
    rw [hs] at h
    refine h.cons ?_
    rw [List.map_append, List.nodup_append]
    refine ⟨h.names d List.mem_cons_self, by simp, ?_⟩
    intro x hx y hy e
    obtain ⟨p, hp, rfl⟩ := List.mem_map.mp hx
    obtain rfl : y = name := by simpa using hy
    exact List.find?_eq_none.mp hfree p hp (by simpa using e)
  | @begun d outer hs _ =>
    rw [hs] at h
    exact h.cons (h.names d List.mem_cons_self)
  | notFound _ => exact h
  | found _ hs _ _ => exact (hs ▸ h).request _
  | argument _ => exact h.requestAll _
  | var _ => exact h.requestAll _
  | closed hc => exact closing hc h

end Staged

/-- What the invariants of the other modules leave open. -/
structure Tidy (s : Session) : Prop where
  staged : Staged s.stack
  closedNames : ∀ id sc, s.closed.get? id = some sc → (sc.params.map Param.name).Nodup
  roots : s.roots.Nodup
  carriers : ∀ a b x y c k, s.closed.get? a = some x → s.closed.get? b = some y →
    x.carried = some c → y.carried = some k → c.param.id = k.param.id → a = b

namespace Tidy

variable {around : ScopeId → List ScopeId} {decl : LocalId → Option (ScopeId × Ty)}
  {s s' : Session} {σ σ' : Store} {d : Draft} {outer : List Draft} {u : BodyUse} {sc : Scope}

theorem new : Tidy {} where
  staged := ⟨by simp, by simp⟩
  closedNames := by simp
  roots := by simp
  carriers := by simp

theorem roots_effect (hn : s.Nested around) (e : s.Effect s') (h : s.roots.Nodup) :
    s'.roots.Nodup := by
  cases e with
  | abandon r => exact r.roots ▸ h
  | @attach d outer u sc s₁ r =>
    cases hs : s₁.stack with
    | cons o rest =>
      rw [attach_of_cons hs]
      exact r.roots ▸ h
    | nil =>
      rw [attach_of_nil hs, r.roots, List.nodup_append]
      refine ⟨h, by simp, ?_⟩
      -- the roots were closed before, this scope was open
      intro a ha b hb e
      obtain rfl := e.trans (List.mem_singleton.mp hb)
      obtain ⟨x, hx⟩ := (hn.root _ ha).1.get?
      have hopen : (d.id, d.children) ∈ s.outline :=
        List.mem_map_of_mem (r.stack_eq ▸ List.mem_cons_self)
      exact hn.open_ne_closed hopen hx rfl
  | _ => exact h

/-- The carrier of a scope that is recorded now is younger than all that exist. -/
theorem carriers_records (hd : s.Declared decl) (r : s.Records d outer u sc s') (h : s.Tidy) :
    ∀ a b x y c k, s'.closed.get? a = some x → s'.closed.get? b = some y →
      x.carried = some c → y.carried = some k → c.param.id = k.param.id → a = b := by
  have fresh : ∀ c, sc.carried = some c → c.param.id = s.freshLocal := by
    intro c hc
    have hcar := r.carries
    rw [hc] at hcar
    exact hcar.2.2.1
  have old : ∀ {b y k}, s.closed.get? b = some y → y.carried = some k → k.param.id ≠ s.freshLocal :=
    fun hb hk => Nat.ne_of_lt (hd.carrier _ _ _ hb hk).2
  intro a b x y c k hx hy hc hk e
  rcases r.closed_cases hx with ⟨rfl, rfl⟩ | ⟨-, x', hx', ex⟩ <;>
    rcases r.closed_cases hy with ⟨rfl, rfl⟩ | ⟨-, y', hy', ey⟩
  · rfl
  · rw [ey] at hk
    exact absurd (e.symm.trans (fresh c hc)) (old hy' hk)
  · rw [ex] at hc
    exact absurd (e.trans (fresh k hk)) (old hx' hc)
  · rw [ex] at hc
    rw [ey] at hk
    exact h.carriers a b x' y' c k hx' hy' hc hk e

theorem step {c : Command} {a : Except ConversionError Answer} (hs : s.Step σ c a s' σ')
    (hn : s.Nested around) (hd : s.Declared decl) (h : s.Tidy) : s'.Tidy := by
  have staged := h.staged.step hs
  have roots := roots_effect hn (effect_of_step hs) h.roots
  rcases closed_of_step hs with hold | ⟨d, outer, u, sc, s₁, _, -, r, he⟩
  · refine ⟨staged, fun id sc hsc => ?_, roots, fun a b x y c k hx hy hc hk e => ?_⟩
    · obtain ⟨old, ho, e⟩ := hold id sc hsc
      rw [e]
      exact h.closedNames id old ho
    · obtain ⟨x', hx', ex⟩ := hold a x hx
      obtain ⟨y', hy', ey⟩ := hold b y hy
      rw [ex] at hc
      rw [ey] at hk
      exact h.carriers a b x' y' c k hx' hy' hc hk e
  · refine ⟨staged, fun id x hx => ?_, roots, he ▸ carriers_records hd r h⟩
    rw [he] at hx
    rcases r.closed_cases hx with ⟨-, rfl⟩ | ⟨-, old, ho, e⟩
    · rw [r.params]
      exact h.staged.names d (r.stack_eq ▸ List.mem_cons_self)
    · rw [e]
      exact h.closedNames id old ho

end Tidy

/-- All that is known of a session at once. -/
theorem Reachable.tidy {s : Session} (h : Reachable s) : s.Formed ∧ s.Tidy := by
  induction h with
  | new => exact ⟨.new, .new⟩
  | @exec s h c σ ih =>
    obtain ⟨around, decl, hn, hd, -⟩ := h.history
    have hs := step_exec s c σ
    exact ⟨ih.1.effect hd (effect_of_step hs), ih.2.step hs hn hd⟩

/-! ## The invariant holds -/

variable {around : ScopeId → List ScopeId} {decl : LocalId → Option (ScopeId × Ty)} {s : Session}

theorem mem_scopes {α : Type} {ofDraft : Draft → α} {ofScope : Scope → α} {p : ScopeId × α}
    (h : p ∈ s.scopes ofDraft ofScope) :
    (∃ d ∈ s.stack, p = (d.id, ofDraft d)) ∨
      ∃ id sc, s.closed.get? id = some sc ∧ p = (id, ofScope sc) := by
  rcases List.mem_append.mp h with h | h
  · obtain ⟨d, hd, rfl⟩ := List.mem_map.mp h
    exact .inl ⟨d, hd, rfl⟩
  · obtain ⟨⟨id, sc⟩, hmem, rfl⟩ := List.mem_map.mp h
    have hsc := Std.TreeMap.mem_toList_iff_getElem?_eq_some.mp hmem
    exact .inr ⟨id, sc, hsc, rfl⟩

/-- Younger scopes come first on the stack. -/
theorem Nested.pairwise_stack (hn : s.Nested around) :
    (s.stack.map Draft.id).Pairwise (· > ·) := by
  have main : ∀ ds : List Draft, Outline.Nests around (ds.map fun d => (d.id, d.children)) →
      (ds.map Draft.id).Pairwise (· > ·) := by
    intro ds
    induction ds with
    | nil => exact fun _ => List.Pairwise.nil
    | cons d ds ih =>
      rintro ⟨-, hlt, hrest⟩
      refine List.Pairwise.cons (fun id hid => hlt id ?_) (ih hrest)
      rw [Outline.ids, List.map_map]
      exact hid
  exact main s.stack hn.nests

theorem Nested.nodup_scopes (hn : s.Nested around) {α : Type} (ofDraft : Draft → α)
    (ofScope : Scope → α) : ((s.scopes ofDraft ofScope).map Prod.fst).Nodup := by
  rw [scopes, List.map_append, List.map_map, List.map_map, List.nodup_append]
  refine ⟨?_, ?_, ?_⟩
  · exact hn.pairwise_stack.imp Nat.ne_of_gt
  · rw [List.Nodup, List.pairwise_map]
    exact Std.TreeMap.distinct_keys_toList.imp fun h e => h (by simpa using e)
  · intro a ha b hb
    obtain ⟨d, hd, rfl⟩ := List.mem_map.mp ha
    obtain ⟨⟨id, sc⟩, hmem, rfl⟩ := List.mem_map.mp hb
    have hopen : (d.id, d.children) ∈ s.outline := List.mem_map_of_mem hd
    exact hn.open_ne_closed hopen (Std.TreeMap.mem_toList_iff_getElem?_eq_some.mp hmem)

/-- A child is mentioned by the scope right around it and nowhere else. -/
theorem Nested.nodup_mentions (hn : s.Nested around) (hr : s.roots.Nodup) : s.mentions.Nodup := by
  have parent : ∀ p ∈ s.scopes Draft.children Scope.children, ∀ c ∈ p.2,
      around c = p.1 :: around p.1 := by
    intro p hp c hc
    rcases mem_scopes hp with ⟨d, hd, rfl⟩ | ⟨id, sc, hsc, rfl⟩
    · exact (hn.openChild (d.id, d.children) (List.mem_map_of_mem hd) c hc).2.2
    · exact (hn.closedChild id sc hsc c hc).2.2
  rw [mentions, List.nodup_append]
  refine ⟨nodup_flatMap_of_keys (hn.nodup_scopes _ _) ?_ ?_, hr, ?_⟩
  · intro p hp
    rcases mem_scopes hp with ⟨d, hd, rfl⟩ | ⟨id, sc, hsc, rfl⟩
    · exact hn.openNodup (d.id, d.children) (List.mem_map_of_mem hd)
    · exact hn.closedNodup id sc hsc
  · intro p hp q hq c hc hc'
    have e := (parent p hp c hc).symm.trans (parent q hq c hc')
    exact (List.cons.inj e).1
  · rintro c hc _ hroot rfl
    obtain ⟨p, hp, hcp⟩ := List.mem_flatMap.mp hc
    have e := (parent p hp c hcp).symm.trans (hn.root c hroot).2
    cases e

/-- A parameter of a closed scope is declared by it, or receives its carrier. -/
theorem mem_signature {sc : Scope} {v : LocalId} (h : v ∈ sc.signature.map Param.id) :
    (∃ p ∈ sc.params, p.id = v) ∨ ∃ c, sc.carried = some c ∧ c.param.id = v := by
  obtain ⟨p, hp, rfl⟩ := List.mem_map.mp h
  rcases List.mem_append.mp hp with hp | hp
  · obtain ⟨c, hc, rfl⟩ := Option.map_eq_some_iff.mp (Option.mem_toList.mp hp)
    exact .inr ⟨c, hc, rfl⟩
  · exact .inl ⟨p, hp, rfl⟩

theorem nodup_signature (hd : s.Declared decl) (hf : s.Formed) {id : ScopeId} {sc : Scope}
    (hsc : s.closed.get? id = some sc) : (sc.signature.map Param.id).Nodup := by
  have hparams := hf.closed id sc hsc
  unfold Scope.signature
  cases hc : sc.carried with
  | none => exact hparams
  | some c =>
    refine List.nodup_cons.mpr ⟨fun hmem => ?_, hparams⟩
    obtain ⟨p, hp, e⟩ := List.mem_map.mp hmem
    have howns := (hd.closed id sc hsc p.id p.ty).mpr ⟨p, hp, rfl, rfl⟩
    rw [e, (hd.carrier id sc c hsc hc).1] at howns
    cases howns

theorem mem_locals_cases (hd : s.Declared decl) {p : ScopeId × List LocalId}
    (hp : p ∈ s.scopes (·.params.map Param.id) (·.signature.map Param.id)) {v : LocalId}
    (hv : v ∈ p.2) :
    (∃ ty, decl v = some (p.1, ty)) ∨ ∃ sc c, s.closed.get? p.1 = some sc ∧
      sc.carried = some c ∧ c.param.id = v := by
  rcases mem_scopes hp with ⟨d, hmem, rfl⟩ | ⟨id, sc, hsc, rfl⟩
  · obtain ⟨q, hq, rfl⟩ := List.mem_map.mp hv
    exact .inl ⟨q.ty, (hd.opened d hmem q.id q.ty).mpr ⟨q, hq, rfl, rfl⟩⟩
  · rcases mem_signature hv with ⟨q, hq, rfl⟩ | ⟨c, hc, rfl⟩
    · exact .inl ⟨q.ty, (hd.closed id sc hsc q.id q.ty).mpr ⟨q, hq, rfl, rfl⟩⟩
    · exact .inr ⟨sc, c, hsc, hc, rfl⟩

theorem nodup_locals (hn : s.Nested around) (hd : s.Declared decl) (hf : s.Formed) (ht : s.Tidy) :
    s.locals.Nodup := by
  refine nodup_flatMap_of_keys (hn.nodup_scopes _ _) ?_ ?_
  · intro p hp
    rcases mem_scopes hp with ⟨d, hmem, rfl⟩ | ⟨id, sc, hsc, rfl⟩
    · exact hf.opened d hmem
    · exact nodup_signature hd hf hsc
  · intro p hp q hq v hvp hvq
    rcases mem_locals_cases hd hp hvp with ⟨ty, hv⟩ | ⟨x, c, hx, hc, ev⟩ <;>
      rcases mem_locals_cases hd hq hvq with ⟨ty', hv'⟩ | ⟨y, k, hy, hk, ev'⟩
    · rw [hv] at hv'
      exact (Prod.mk.inj (Option.some.inj hv')).1
    · have hnone := (hd.carrier q.1 y k hy hk).1
      rw [ev', hv] at hnone
      cases hnone
    · have hnone := (hd.carrier p.1 x c hx hc).1
      rw [ev, hv'] at hnone
      cases hnone
    · exact ht.carriers p.1 q.1 x y c k hx hy hc hk (ev.trans ev'.symm)

theorem lt_freshLocal (hd : s.Declared decl) {v : LocalId} (h : v ∈ s.locals) :
    v < s.freshLocal := by
  obtain ⟨p, hp, hv⟩ := List.mem_flatMap.mp h
  rcases mem_locals_cases hd hp hv with ⟨ty, hv⟩ | ⟨sc, c, hsc, hc, rfl⟩
  · exact (hd.fresh v p.1 ty hv).1
  · exact (hd.carrier p.1 sc c hsc hc).2

/-- What `around` tells of an open scope is on the stack behind it. -/
theorem Nested.encloses_open (hn : s.Nested around) {d : Draft} (hd : d ∈ s.stack) {o : ScopeId}
    (ho : o ∈ around d.id) : s.Encloses o d.id := by
  have main : ∀ ds : List Draft, Outline.Nests around (ds.map fun d => (d.id, d.children)) →
      d ∈ ds → ∃ e, e.id = o ∧ [d, e].Sublist ds := by
    intro ds
    induction ds with
    | nil => exact fun _ h => absurd h List.not_mem_nil
    | cons x ds ih =>
      rintro ⟨har, -, hrest⟩ hmem
      rcases List.mem_cons.mp hmem with rfl | hmem
      · rw [har, Outline.ids, List.map_map] at ho
        obtain ⟨e, he, rfl⟩ := List.mem_map.mp ho
        exact ⟨e, rfl, (List.singleton_sublist.mpr he).cons_cons d⟩
      · obtain ⟨e, heid, hsub⟩ := ih hrest hmem
        exact ⟨e, heid, hsub.cons x⟩
  obtain ⟨e, rfl, hsub⟩ := main s.stack hn.nests hd
  exact .stacked hsub

theorem Nested.encloses_attached (hn : s.Nested around) {id : ScopeId} (h : s.Attached id)
    {o : ScopeId} (ho : o ∈ around id) : s.Encloses o id := by
  induction h with
  | root hr =>
    rw [(hn.root _ hr).2] at ho
    cases ho
  | @openChild d c hd hc =>
    rw [(hn.openChild (d.id, d.children) (List.mem_map_of_mem hd) c hc).2.2] at ho
    rcases List.mem_cons.mp ho with rfl | ho
    · exact .openChild hd hc
    · exact (hn.encloses_open hd ho).trans (.openChild hd hc)
  | @child parent c sc _ hsc hc ih =>
    rw [(hn.closedChild parent sc hsc c hc).2.2] at ho
    rcases List.mem_cons.mp ho with rfl | ho
    · exact .closedChild hsc hc
    · exact (ih ho).trans (.closedChild hsc hc)

/-- A scope around another is there, open or closed. -/
theorem Encloses.exists_parameters? {o id : ScopeId} (h : s.Encloses o id) :
    ∃ params, s.parameters? o = some params := by
  have opened : ∀ d ∈ s.stack, ∃ params, s.parameters? d.id = some params := by
    intro d hd
    unfold parameters?
    split
    · exact ⟨_, rfl⟩
    · next hnone => exact absurd (List.find?_eq_none.mp hnone d hd) (by simp)
  induction h with
  | @stacked _ o hsub => exact opened o (hsub.subset (List.mem_cons_of_mem _ List.mem_cons_self))
  | openChild hd _ => exact opened _ hd
  | @closedChild p _ sc hsc _ =>
    unfold parameters?
    split
    · exact ⟨_, rfl⟩
    · exact ⟨sc.params, by rw [hsc]; rfl⟩
  | trans _ _ ih _ => exact ih

theorem sourced_of_backs (hd : s.Declared decl) {id : ScopeId} {x : Slot}
    (hb : Backs around decl id x) (hencl : ∀ o ∈ around id, s.Encloses o id) : s.Sourced id x := by
  intro v hv
  unfold Backs at hb
  simp only [hv] at hb
  have he := hencl x.owner hb.2
  obtain ⟨params, hp⟩ := he.exists_parameters?
  exact ⟨he, params, hp, (owns_of_parameters? hd hp v x.ty).mp hb.1⟩

/-- The invariant holds of every session, whatever the commands were and whichever of them failed. -/
theorem wellFormed_of_reachable {s : Session} (h : s.Reachable) : s.WellFormed := by
  obtain ⟨around, decl, hn, hd, hc⟩ := h.history
  obtain ⟨hf, ht⟩ := h.tidy
  have hmem : ∀ {d}, d ∈ s.stack → (d.id, d.children) ∈ s.outline := List.mem_map_of_mem
  constructor
  case building => exact ht.staged.building
  case opened => exact fun d hd => hn.opened _ (hmem hd)
  case closed => exact hn.closed
  case stacked => exact hn.pairwise_stack
  case mentioned => exact hn.nodup_mentions ht.roots
  case openChild => exact fun d hd c hc => (hn.openChild _ (hmem hd) c hc).2.1
  case closedChild => exact fun id sc hsc c hc => (hn.closedChild id sc hsc c hc).2.1
  case distinct => exact nodup_locals hn hd hf ht
  case fresh => exact fun v hv => lt_freshLocal hd hv
  case openNames => exact ht.staged.names
  case closedNames => exact ht.closedNames
  case requested =>
    intro d hmem x hx
    exact sourced_of_backs hd (hc.requested d hmem x hx) fun o ho => hn.encloses_open hmem ho
  case captured =>
    intro id sc ha hsc x hx
    exact sourced_of_backs hd (hc.slots id sc hsc x hx) fun o ho => hn.encloses_attached ha ho

end Session

end ClosureConversion
