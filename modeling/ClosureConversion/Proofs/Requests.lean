import ClosureConversion.Proofs.Captures

/-!
How the requests of open scopes fit together.

A capture is requested on every scope between the place of a reference and the scope that declares
the value.  So what a scope requests, the scope around it owns or requests too (`Chained`), and the
same holds of what its closed children capture: `Session.Covered`.
-/

namespace ClosureConversion

/-- The scope owns or requests every slot of the environment, and requests its indices. -/
def Draft.Covers (o : Draft) (env : Env) : Prop :=
  (∀ x ∈ env.slots, x.owner ≠ o.id → o.requested.contains x.value = true) ∧
    ∀ i ∈ env.indices, i ∈ o.requested.indices

/-- Each scope covers the requests of the one before it. -/
def Chained : List Draft → Prop
  | d :: o :: outer => o.Covers d.requested ∧ Chained (o :: outer)
  | _ => True

namespace Draft.Covers

variable {d o : Draft} {env : Env} {r : Request}

theorem empty (o : Draft) : o.Covers {} :=
  ⟨fun _ hx => absurd hx List.not_mem_nil, fun i hi => absurd hi (SortedSet.not_mem_empty i)⟩

theorem request (h : o.Covers env) (r : Request) : (o.request r).Covers env := by
  refine ⟨fun x hx ho => ?_, fun i hi => Env.mem_indices_request (h.2 i hi) r⟩
  exact (Env.contains_request _ _ _).mpr (.inl (h.1 x hx ho))

/-- Both scopes request the same. -/
theorem request_both (h : o.Covers d.requested) (r : Request) :
    (o.request r).Covers (d.request r).requested := by
  refine ⟨fun x hx ho => ?_, fun i hi => ?_⟩
  · rcases (Env.mem_slots_request _ _ _).mp hx with hx | ⟨-, rfl⟩
    · exact (h.request r).1 x hx ho
    · exact (Env.contains_request _ _ _).mpr (.inr rfl)
  · have hi : i ∈ (d.requested.request r).indices := hi
    rw [Env.indices_request] at hi
    show i ∈ (o.requested.request r).indices
    cases r with
    | argument j =>
      rw [Env.indices_request]
      rcases (SortedSet.mem_insert _ _ _).mp hi with rfl | hi
      · exact (SortedSet.mem_insert _ _ _).mpr (.inl rfl)
      · exact (SortedSet.mem_insert _ _ _).mpr (.inr (h.2 i hi))
    | _ => exact Env.mem_indices_request (h.2 i hi) _

/-- The outer scope declares what the inner one requests. -/
theorem request_owned (h : o.Covers d.requested) {id : LocalId} {ty : Ty} :
    o.Covers (d.request (.loc id ty o.id)).requested := by
  refine ⟨fun x hx ho => ?_, fun i hi => h.2 i ?_⟩
  · rcases (Env.mem_slots_request _ _ _).mp hx with hx | ⟨-, rfl⟩
    · exact h.1 x hx ho
    · exact absurd rfl ho
  · have hi : i ∈ (d.requested.request (.loc id ty o.id)).indices := hi
    rwa [Env.indices_request] at hi

end Draft.Covers

namespace Chained

theorem tail {d : Draft} {outer : List Draft} (h : Chained (d :: outer)) : Chained outer := by
  cases outer with
  | nil => trivial
  | cons o outer => exact h.2

/-- Of the innermost scope only the requests matter. -/
theorem congr_head {d e : Draft} {outer : List Draft} (h : Chained (d :: outer))
    (hr : e.requested = d.requested) : Chained (e :: outer) := by
  cases outer with
  | nil => trivial
  | cons o outer =>
    unfold Chained at h ⊢
    rw [hr]
    exact h

theorem request {inner outer : List Draft} {r : Request} (h : Chained (inner ++ outer))
    (hg : Session.Grounded outer r) : Chained (inner.map (·.request r) ++ outer) := by
  induction inner with
  | nil => exact h
  | cons d inner ih =>
    have ih := ih h.tail
    cases inner with
    | cons e inner => exact ⟨h.1.request_both r, ih⟩
    | nil =>
      cases outer with
      | nil => trivial
      | cons o outer =>
        refine ⟨?_, ih⟩
        cases hg with
        | loc ho hp =>
          obtain rfl := Option.some.inj ho
          exact h.1.request_owned
        | argument _ ho => cases ho
        | var _ _ ho => cases ho

end Chained

namespace Session

structure Covered (s : Session) : Prop where
  chained : Chained s.stack
  children : ∀ d ∈ s.stack, ∀ c ∈ d.children, d.Covers (s.closed.envOf c)

namespace Covered

variable {around : ScopeId → List ScopeId} {decl : LocalId → Option (ScopeId × Ty)}
  {s s' : Session} {d : Draft} {outer : List Draft} {u : BodyUse} {sc : Scope}

theorem new : Covered {} := ⟨trivial, by simp⟩

/-- The head of the stack may be replaced by a scope that requests as much. -/
theorem of_head (h : s.Covered) (hs : s.stack = d :: outer) {e : Draft} (hid : e.id = d.id)
    (hr : e.requested = d.requested) (hc : e.children = d.children) (hs' : s'.stack = e :: outer)
    (ht : s'.closed = s.closed) : s'.Covered := by
  have hch := h.chained
  have hcov := h.children
  rw [hs] at hch hcov
  rw [List.forall_mem_cons] at hcov
  refine ⟨hs' ▸ hch.congr_head hr, ?_⟩
  rw [hs', ht]
  refine List.forall_mem_cons.mpr ⟨fun c hc' => ?_, hcov.2⟩
  unfold Draft.Covers
  rw [hid, hr]
  exact hcov.1 c (hc ▸ hc')

theorem request (h : s.Covered) {inner : List Draft} {r : Request} (hs : s.stack = inner ++ outer)
    (hg : Grounded outer r) : Covered { s with stack := inner.map (·.request r) ++ outer } := by
  refine ⟨(hs ▸ h.chained).request hg, fun d hd c hc => ?_⟩
  rcases List.mem_append.mp hd with hd | hd
  · obtain ⟨e, he, rfl⟩ := List.mem_map.mp hd
    exact (h.children e (hs ▸ List.mem_append_left outer he) c hc).request r
  · exact h.children d (hs ▸ List.mem_append_right inner hd) c hc

/-- The scopes behind the innermost one, over a table in which their children capture the same. -/
theorem of_tail (h : s.Covered) (hs : s.stack = d :: outer) (hs' : s'.stack = outer)
    (he : ∀ o ∈ outer, ∀ c ∈ o.children, s'.closed.envOf c = s.closed.envOf c) : s'.Covered := by
  have hcov := h.children
  rw [hs, List.forall_mem_cons] at hcov
  refine ⟨hs' ▸ (hs ▸ h.chained).tail, fun o ho c hc => ?_⟩
  rw [hs'] at ho
  rw [he o ho c hc]
  exact hcov.2 o ho c hc

section

variable (h : s.Covered) (hn : s.Nested around) (hd : s.Declared decl)
  (hc : s.Captured around decl) (r : s.Records d outer u sc s')

include h hn r

theorem records : s'.Covered := by
  refine h.of_tail r.stack_eq r.stack fun o ho c hmem => ?_
  have hmem' : (o.id, o.children) ∈ s.outline := by
    refine List.mem_map_of_mem ?_
    rw [r.stack_eq]
    exact List.mem_cons_of_mem d ho
  obtain ⟨x, hx⟩ := (hn.openChild _ hmem' c hmem).1.get?
  exact Captured.envOf_records r ((hn.of_cons r.stack_eq).open_ne_closed List.mem_cons_self hx)

include hd hc

/-- What the recorded scope captures was requested, so the scope around it covers that. -/
theorem covers_record {o : Draft} {rest : List Draft} (ho : outer = o :: rest) :
    o.Covers sc.env := by
  have hs := r.stack_eq
  have hsub := (Env.isSubset_iff _ _).mp ((Draft.checkRequested_eq_ok_iff _ _).mp r.requested)
  have hch := h.chained
  rw [hs, ho] at hch
  rcases Captured.env_of_records r (hc.noted_gather hn hs r.uses hd) with ⟨he, -⟩ | ⟨he, -⟩
  · rw [he]
    refine ⟨fun x hx hown => ?_, fun i hi => hch.1.2 i (hsub.2 i hi)⟩
    obtain ⟨y, hy, hv⟩ := (Env.contains_iff _ _).mp (hsub.1 x hx)
    have hby := hc.requested d (hs ▸ List.mem_cons_self) y hy
    have hbx := hc.backs_gather hn hs r.uses hx
    rw [← hv]
    exact hch.1.1 y hy fun e => hown ((hbx.owner_eq hby hv.symm).trans e)
  · rw [he]
    exact .empty o

theorem attach : (s'.attach d.id).Covered := by
  have hr := h.records hn r
  cases ho : outer with
  | nil =>
    rw [attach_of_nil (r.stack.trans ho)]
    exact ⟨hr.chained, hr.children⟩
  | cons o rest =>
    have hst := r.stack.trans ho
    have hcov := hr.children
    rw [hst, List.forall_mem_cons] at hcov
    rw [attach_of_cons hst]
    refine ⟨(hst ▸ hr.chained).congr_head rfl,
      List.forall_mem_cons.mpr ⟨fun c hmem => ?_, hcov.2⟩⟩
    rcases List.mem_append.mp hmem with hmem | hmem
    · exact hcov.1 c hmem
    · obtain rfl := List.mem_singleton.mp hmem
      show o.Covers (s'.closed.envOf d.id)
      rw [ScopeTable.envOf_of_get? r.get?_self]
      exact h.covers_record hn hd hc r ho

end

theorem effect (h : s.Covered) (hn : s.Nested around) (hd : s.Declared decl)
    (hc : s.Captured around decl) (e : s.Effect s') : s'.Covered := by
  cases e with
  | none => exact h
  | enter span =>
    refine ⟨?_, List.forall_mem_cons.mpr ⟨by simp, h.children⟩⟩
    have hch := h.chained
    cases hs : s.stack with
    | nil => trivial
    | cons o outer => exact ⟨.empty o, hs ▸ hch⟩
  | @declare d _ p hs _ =>
    exact h.of_head (e := { d with params := d.params ++ [p] }) hs rfl rfl rfl rfl rfl
  | @begin d _ hs => exact h.of_head (e := { d with building := true }) hs rfl rfl rfl rfl rfl
  | request hs hg => exact h.request hs hg
  | pop hs => exact h.of_tail hs rfl fun _ _ _ _ => rfl
  | prune hs _ => exact h.of_tail hs rfl fun _ _ c _ => Captured.envOf_retireAll _ _ c
  | abandon r => exact h.records hn r
  | attach r => exact h.attach hn hd hc r

end Covered

theorem Reachable.covered {s : Session} (h : s.Reachable) : s.Covered := by
  induction h with
  | new => exact .new
  | @exec s h c σ ih =>
    obtain ⟨around, decl, hn, hd, hc⟩ := h.history
    exact ih.effect hn hd hc (effect_of_step (step_exec s c σ))

end Session

/-! ## What a body captures of what its scope requests -/

namespace Draft

variable {d : Draft} {t : ScopeTable} {body : Expr} {u : BodyUse}
  (hcov : ∀ c ∈ d.children, d.Covers (t.envOf c)) (hu : d.uses body = .ok u)

include hcov hu

/-- Of the slots that are captured each was requested, since each was granted or is forwarded. -/
theorem contains_of_mem_gather {x : Slot} (hx : x ∈ (d.gather t u).slots) :
    d.requested.contains x.value = true := by
  rcases mem_slots_gather hx with hx | ⟨c, hc, -, hx, ho⟩
  · obtain ⟨⟨n, hn, hv⟩, hd⟩ := (contains_uses hu _).mp (Env.contains_of_mem hx)
    have hadm := (uses_isOk_iff d body).mp ⟨u, hu⟩ n hn
    exact (hadm.1 _ hv).resolve_left hd
  · exact (hcov c hc).1 x hx ho

/-- An index that was not requested is read in the body itself. -/
theorem requested_or_reads_of_mem_gather {i : Nat} (hi : i ∈ (d.gather t u).indices) :
    i ∈ d.requested.indices ∨ body.ReadsIndex i := by
  rcases (mem_indices_gather hu i).mp hi with hi | ⟨c, huse, hi⟩
  · exact .inr hi
  · exact .inl ((hcov c (mem_children_of_uses hu huse)).2 i hi)

theorem isSubset_gather_iff :
    (d.gather t u).isSubset d.requested = true ↔
      ∀ i, body.ReadsIndex i → i ∈ d.requested.indices := by
  rw [Env.isSubset_iff]
  constructor
  · intro h i hi
    exact h.2 i ((mem_indices_gather hu i).mpr (.inl hi))
  · intro h
    refine ⟨fun x hx => contains_of_mem_gather hcov hu hx, fun i hi => ?_⟩
    rcases requested_or_reads_of_mem_gather hcov hu hi with hi | hi
    · exact hi
    · exact h i hi

end Draft

end ClosureConversion
