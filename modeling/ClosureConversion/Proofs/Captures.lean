import ClosureConversion.Proofs.Declared

/-!
What the scopes of a session capture.

`Backs` says that a slot is for a value that exists where the scope stands: a parameter of a scope
around it, with the type it was declared with, or an input.  `Balanced` is the equation that a closed
scope's environment satisfies: it captures what its body reads and what the scopes it uses capture,
except for its own parameters.  `Session.Captured` holds both for every scope of a session.
-/

namespace ClosureConversion

/-! ## Slots -/

/-- Whose value it is, and where that is declared. -/
def Backs (around : ScopeId → List ScopeId) (decl : LocalId → Option (ScopeId × Ty)) (id : ScopeId)
    (s : Slot) : Prop :=
  match s.value with
  | .loc v => decl v = some (s.owner, s.ty) ∧ s.owner ∈ around id
  | .args => s.owner = rootScope ∧ s.ty = .argVector
  | .var _ => s.owner = rootScope

namespace Backs

variable {around around' : ScopeId → List ScopeId} {decl decl' : LocalId → Option (ScopeId × Ty)}
  {id child : ScopeId} {s : Slot}

theorem mono (h : Backs around decl id s) (ha : around' id = around id)
    (hd : ∀ v o, decl v = some o → decl' v = decl v) : Backs around' decl' id s := by
  unfold Backs at h ⊢
  cases hv : s.value with
  | loc v =>
    simp only [hv] at h ⊢
    rw [hd v _ h.1, ha]
    exact h
  | args => simpa only [hv] using h
  | var name => simpa only [hv] using h

/-- What a child captures and its parent does not own, the parent can capture. -/
theorem parent (h : Backs around decl child s) (hc : around child = id :: around id)
    (ho : s.owner ≠ id) : Backs around decl id s := by
  unfold Backs at h ⊢
  cases hv : s.value with
  | loc v =>
    simp only [hv] at h ⊢
    rw [hc] at h
    exact ⟨h.1, (List.mem_cons.mp h.2).resolve_left ho⟩
  | args => simpa only [hv] using h
  | var name => simpa only [hv] using h

/-- Two slots of one value have one owner. -/
theorem owner_eq {x y : Slot} {other : ScopeId} (hx : Backs around decl id x)
    (hy : Backs around decl other y) (hv : x.value = y.value) : x.owner = y.owner := by
  unfold Backs at hx hy
  rw [hv] at hx
  cases h : y.value with
  | loc v =>
    simp only [h] at hx hy
    rw [hx.1] at hy
    exact (Prod.mk.inj (Option.some.inj hy.1)).1
  | args =>
    simp only [h] at hx hy
    exact hx.1.trans hy.1.symm
  | var name =>
    simp only [h] at hx hy
    exact hx.trans hy.symm

/-- The parent owns the slot iff its parameters include the value. -/
theorem owner_eq_iff (h : Backs around decl child s) {params : List Param}
    (hp : Owns decl id params) (hid : id ≠ rootScope) :
    s.owner = id ↔ Declares params s.value := by
  unfold Backs at h
  cases hv : s.value with
  | loc v =>
    simp only [hv] at h
    rw [declares_loc]
    constructor
    · intro e
      obtain ⟨p, hp, rfl, -⟩ := (hp v s.ty).mp (e ▸ h.1)
      exact List.mem_map_of_mem hp
    · intro hmem
      obtain ⟨p, hp', rfl⟩ := List.mem_map.mp hmem
      have := (hp p.id p.ty).mpr ⟨p, hp', rfl, rfl⟩
      rw [this] at h
      exact (Prod.mk.inj (Option.some.inj h.1)).1.symm
  | args =>
    simp only [hv] at h
    simp [Declares, h.1, hid.symm]
  | var name =>
    simp only [hv] at h
    simp [Declares, h, hid.symm]

end Backs

/-! ## Environments of closed scopes -/

/-- The environment of `sc` is what its body and the scopes it uses need from outside. -/
structure Balanced (t : ScopeTable) (sc : Scope) : Prop where
  contains : ∀ v, sc.env.contains v = true ↔ ¬ Declares sc.params v ∧
    (sc.body.Reads v ∨ ∃ c, sc.body.Uses c ∧ (t.envOf c).contains v = true)
  indices : ∀ i, i ∈ sc.env.indices ↔
    sc.body.ReadsIndex i ∨ ∃ c, sc.body.Uses c ∧ i ∈ (t.envOf c).indices
  names : ∀ name, name ∈ sc.env.names ↔
    sc.body.ReadsName name ∨ ∃ c, sc.body.Uses c ∧ name ∈ (t.envOf c).names
  static : sc.carried = none ↔ ∀ v, ¬ sc.env.contains v = true
  children : ∀ c, sc.body.Uses c → c ∈ sc.children

/-- Where an index or a name is noted, there is a slot for it. -/
structure Env.Noted (env : Env) : Prop where
  index : ∀ i ∈ env.indices, env.contains .args = true
  name : ∀ name ∈ env.names, env.contains (.var name) = true

theorem Scope.env_of_carried {sc : Scope} {c : Carried} (h : sc.carried = some c) :
    sc.env = c.env := by
  simp [Scope.env, Scope.env?, h]

theorem Scope.env_of_static {sc : Scope} (h : sc.carried = none) : sc.env = {} := by
  simp [Scope.env, Scope.env?, h]

namespace ScopeTable

theorem envOf_of_get? {t : ScopeTable} {id : ScopeId} {sc : Scope} (h : t.get? id = some sc) :
    t.envOf id = sc.env := by
  simp only [envOf, h, Option.elim_some]

end ScopeTable

theorem Balanced.congr {t t' : ScopeTable} {sc : Scope} (h : Balanced t sc)
    (he : ∀ c ∈ sc.children, t'.envOf c = t.envOf c) (alive : Bool) :
    Balanced t' { sc with alive := alive } where
  contains v := by
    refine (h.contains v).trans (and_congr_right fun _ => or_congr_right (exists_congr fun c => ?_))
    exact and_congr_right fun hc => by rw [he c (h.children c hc)]
  indices i := by
    refine (h.indices i).trans (or_congr_right (exists_congr fun c => ?_))
    exact and_congr_right fun hc => by rw [he c (h.children c hc)]
  names name := by
    refine (h.names name).trans (or_congr_right (exists_congr fun c => ?_))
    exact and_congr_right fun hc => by rw [he c (h.children c hc)]
  static := h.static
  children := h.children

/-! ## Sessions -/

namespace Session

structure Captured (around : ScopeId → List ScopeId) (decl : LocalId → Option (ScopeId × Ty))
    (s : Session) : Prop where
  requested : ∀ d ∈ s.stack, ∀ x ∈ d.requested.slots, Backs around decl d.id x
  slots : ∀ id sc, s.closed.get? id = some sc → ∀ x ∈ sc.env.slots, Backs around decl id x
  noted : ∀ id sc, s.closed.get? id = some sc → sc.env.Noted
  balanced : ∀ id sc, s.closed.get? id = some sc → Balanced s.closed sc

namespace Captured

variable {around around' : ScopeId → List ScopeId} {decl decl' : LocalId → Option (ScopeId × Ty)}
  {s s' : Session} {d : Draft} {outer : List Draft} {u : BodyUse} {sc : Scope}

theorem new : Captured (fun _ => []) (fun _ => none) {} where
  requested := by simp
  slots := by simp
  noted := by simp
  balanced := by simp

theorem mono (h : s.Captured around decl) (hn : s.Nested around')
    (ha : ∀ id, id < s.freshScope → around' id = around id)
    (hd : ∀ v o, decl v = some o → decl' v = decl v) : s.Captured around' decl' where
  requested d hd' x hx := by
    have hlt := (hn.opened (d.id, d.children) (List.mem_map_of_mem hd')).2.1
    exact (h.requested d hd' x hx).mono (ha d.id hlt) hd
  slots id sc hsc x hx := (h.slots id sc hsc x hx).mono (ha id (hn.closed id sc hsc).2.2) hd
  noted := h.noted
  balanced := h.balanced

theorem of_stack (h : s.Captured around decl)
    (hs : ∀ d ∈ s'.stack, ∃ e ∈ s.stack, e.id = d.id ∧ e.requested = d.requested)
    (hc : s'.closed = s.closed) : s'.Captured around decl where
  requested d hd := by
    obtain ⟨e, he, hid, hr⟩ := hs d hd
    rw [← hid, ← hr]
    exact h.requested e he
  slots := hc ▸ h.slots
  noted := hc ▸ h.noted
  balanced := hc ▸ h.balanced

theorem envOf_retireAll (t : ScopeTable) (dead : List ScopeId) (c : ScopeId) :
    (t.retireAll dead).envOf c = t.envOf c := by
  unfold ScopeTable.envOf
  cases hc : t.get? c with
  | none =>
    rw [(ScopeTable.get?_retireAll_eq_none_iff t dead c).mpr hc]
  | some sc =>
    obtain ⟨alive, h⟩ := ScopeTable.get?_retireAll_of_get? dead hc
    rw [h]
    rfl

theorem prune (h : s.Captured around decl) (hs : s.stack = d :: outer) (u : BodyUse) :
    (s.pruned d outer u).Captured around decl where
  requested e he := h.requested e (hs ▸ List.mem_cons_of_mem d he)
  slots id sc hsc := by
    obtain ⟨old, ho, e⟩ := ScopeTable.get?_of_retireAll hsc
    rw [e]
    exact h.slots id old ho
  noted id sc hsc := by
    obtain ⟨old, ho, e⟩ := ScopeTable.get?_of_retireAll hsc
    rw [e]
    exact h.noted id old ho
  balanced id sc hsc := by
    obtain ⟨old, ho, e⟩ := ScopeTable.get?_of_retireAll hsc
    rw [e]
    exact (h.balanced id old ho).congr (fun c _ => envOf_retireAll _ _ c) _

/-- The scopes inside the one that declares a parameter may request it. -/
theorem backs_of_grounded (hn : s.Nested around) (hd : s.Declared decl) {inner : List Draft}
    {r : Request} (hs : s.stack = inner ++ outer) (hg : Grounded outer r) (hin : d ∈ inner) :
    Backs around decl d.id r.toSlot := by
  cases hg with
  | @loc o p ho hp =>
    obtain ⟨rest, rfl⟩ : ∃ rest, outer = o :: rest := by
      cases outer with
      | nil => cases ho
      | cons x rest => exact ⟨rest, by rw [Option.some.inj ho]⟩
    have hnests := hn.nests
    unfold outline at hnests
    rw [hs, List.map_append, List.map_cons] at hnests
    have hmem : o.id ∈ around d.id := hnests.mem_around (List.mem_map_of_mem hin)
    have howns := hd.opened o (hs ▸ List.mem_append_right inner List.mem_cons_self)
    exact ⟨(howns p.id p.ty).mpr ⟨p, hp, rfl, rfl⟩, hmem⟩
  | argument index _ => exact ⟨rfl, rfl⟩
  | var name ty _ => exact rfl

theorem request (h : s.Captured around decl) (hn : s.Nested around) (hd : s.Declared decl)
    {inner : List Draft} {r : Request} (hs : s.stack = inner ++ outer) (hg : Grounded outer r) :
    Captured around decl { s with stack := inner.map (·.request r) ++ outer } where
  requested d hd' x hx := by
    rcases List.mem_append.mp hd' with hd' | hd'
    · obtain ⟨e, he, rfl⟩ := List.mem_map.mp hd'
      rcases (Env.mem_slots_request _ _ _).mp hx with hx | ⟨-, rfl⟩
      · exact h.requested e (hs ▸ List.mem_append_left outer he) x hx
      · exact backs_of_grounded (d := e) hn hd hs hg he
    · exact h.requested d (hs ▸ List.mem_append_right inner hd') x hx
  slots := h.slots
  noted := h.noted
  balanced := h.balanced

/-! ## Closing -/

section

variable (h : s.Captured around decl) (hn : s.Nested around) (hs : s.stack = d :: outer)

include h hn hs

/-- A child of the innermost scope is closed, and what it captures exists there. -/
theorem child_env {c : ScopeId} (hc : c ∈ d.children) :
    (s.closed.envOf c).Noted ∧ (∀ x ∈ (s.closed.envOf c).slots, Backs around decl c x) ∧
      around c = d.id :: around d.id := by
  obtain ⟨ha, -, har⟩ := (hn.of_cons hs).openChild _ List.mem_cons_self c hc
  obtain ⟨x, hx⟩ := ha.get?
  rw [ScopeTable.envOf_of_get? hx]
  exact ⟨h.noted c x hx, h.slots c x hx, har⟩

variable {body : Expr} (hu : d.uses body = .ok u)

include hu

theorem backs_gather {x : Slot} (hx : x ∈ (d.gather s.closed u).slots) :
    Backs around decl d.id x := by
  rcases Draft.mem_slots_gather hx with hx | ⟨c, hc, -, hx, ho⟩
  · rcases Draft.mem_slots_uses hu hx with hx | rfl
    · exact h.requested d (hs ▸ List.mem_cons_self) x hx
    · exact ⟨rfl, rfl⟩
  · obtain ⟨-, hb, har⟩ := h.child_env hn hs hc
    exact (hb x hx).parent har ho

/-- The gathered environment holds what the body reads and what the scopes it uses capture, except
for the parameters of the scope itself. -/
theorem contains_gather_iff (hd : s.Declared decl) (v : Capture) :
    (d.gather s.closed u).contains v = true ↔ ¬ Declares d.params v ∧
      (body.Reads v ∨ ∃ c, body.Uses c ∧ (s.closed.envOf c).contains v = true) := by
  have hroot := (hn.of_cons hs).opened _ List.mem_cons_self
  have hown : ∀ c ∈ d.children, ∀ x ∈ (s.closed.envOf c).slots,
      (x.owner = d.id ↔ Declares d.params x.value) := by
    intro c hc x hx
    have howns := hd.opened d (hs ▸ List.mem_cons_self)
    exact ((h.child_env hn hs hc).2.1 x hx).owner_eq_iff howns (Nat.ne_of_gt hroot.1)
  rw [Draft.contains_gather, Draft.contains_uses hu, Draft.exists_used_iff hu]
  constructor
  · rintro (⟨hr, hnd⟩ | ⟨c, huse, x, hx, ho, rfl⟩)
    · exact ⟨hnd, .inl hr⟩
    · have hc := Draft.mem_children_of_uses hu huse
      refine ⟨fun hdec => ho ((hown c hc x hx).mpr hdec), .inr ⟨c, huse, ?_⟩⟩
      exact Env.contains_of_mem hx
  · rintro ⟨hnd, hr | ⟨c, huse, hcon⟩⟩
    · exact .inl ⟨hr, hnd⟩
    · have hc := Draft.mem_children_of_uses hu huse
      obtain ⟨x, hx, rfl⟩ := (Env.contains_iff _ _).mp hcon
      exact .inr ⟨c, huse, x, hx, fun ho => hnd ((hown c hc x hx).mp ho), rfl⟩

theorem noted_gather (hd : s.Declared decl) : (d.gather s.closed u).Noted where
  index i hi := by
    rw [h.contains_gather_iff hn hs hu hd]
    refine ⟨by simp [Declares], ?_⟩
    rcases (Draft.mem_indices_gather hu i).mp hi with hr | ⟨c, huse, hi⟩
    · exact .inl hr.args
    · have hc := Draft.mem_children_of_uses hu huse
      exact .inr ⟨c, huse, (h.child_env hn hs hc).1.index i hi⟩
  name name hx := by
    rw [h.contains_gather_iff hn hs hu hd]
    refine ⟨by simp [Declares], ?_⟩
    rcases (Draft.mem_names_gather hu name).mp hx with hr | ⟨c, huse, hx⟩
    · exact .inl ((Term.readsName_iff body name).mp hr)
    · have hc := Draft.mem_children_of_uses hu huse
      exact .inr ⟨c, huse, (h.child_env hn hs hc).1.name name hx⟩

end

/-- A recorded scope has the gathered environment; where that is empty, nothing is lost. -/
theorem env_of_records (r : s.Records d outer u sc s') (hnoted : (d.gather s.closed u).Noted) :
    sc.env = d.gather s.closed u ∧ sc.carried.isSome = true ∨
      sc.env = {} ∧ sc.carried = none ∧ (∀ v, ¬ (d.gather s.closed u).contains v = true) ∧
        (∀ i, i ∉ (d.gather s.closed u).indices) ∧ ∀ x, x ∉ (d.gather s.closed u).names := by
  have hc := r.carries
  cases hcar : sc.carried with
  | some c =>
    rw [hcar] at hc
    exact .inl ⟨(Scope.env_of_carried hcar).trans hc.2.1, rfl⟩
  | none =>
    rw [hcar] at hc
    have hempty := (Env.isEmpty_iff _).mp hc.1
    exact .inr ⟨Scope.env_of_static hcar, rfl, hempty, fun i hi => hempty _ (hnoted.index i hi),
      fun x hx => hempty _ (hnoted.name x hx)⟩

theorem envOf_records (r : s.Records d outer u sc s') {c : ScopeId} (hc : d.id ≠ c) :
    s'.closed.envOf c = s.closed.envOf c := by
  rw [← envOf_retireAll s.closed (d.unused u) c]
  unfold ScopeTable.envOf
  rw [r.get? c, if_neg hc]

section

variable (h : s.Captured around decl) (hn : s.Nested around) (hd : s.Declared decl)
  (r : s.Records d outer u sc s')

include h hn hd r

theorem balanced_record : Balanced s'.closed sc := by
  have hs := r.stack_eq
  have henv := env_of_records r (h.noted_gather hn hs r.uses hd)
  have hchild : ∀ c, sc.body.Uses c → s'.closed.envOf c = s.closed.envOf c := by
    intro c hc
    have hmem := Draft.mem_children_of_uses r.uses hc
    have hlt := ((hn.of_cons hs).openChild _ List.mem_cons_self c hmem).2.1
    exact envOf_records r (Nat.ne_of_lt hlt)
  have hcongr : ∀ P : Env → Prop, (∃ c, sc.body.Uses c ∧ P (s'.closed.envOf c)) ↔
      ∃ c, sc.body.Uses c ∧ P (s.closed.envOf c) := by
    intro P
    exact exists_congr fun c => and_congr_right fun hc => by rw [hchild c hc]
  constructor
  case contains =>
    intro v
    rw [hcongr (·.contains v = true), r.params, ← h.contains_gather_iff hn hs r.uses hd v]
    rcases henv with ⟨he, -⟩ | ⟨he, -, hempty, -⟩
    · rw [he]
    · rw [he]
      exact iff_of_false (Env.not_contains_empty v) (hempty v)
  case indices =>
    intro i
    rw [hcongr (i ∈ ·.indices), ← Draft.mem_indices_gather r.uses i]
    rcases henv with ⟨he, -⟩ | ⟨he, -, -, hempty, -⟩
    · rw [he]
    · rw [he]
      exact iff_of_false (SortedSet.not_mem_empty i) (hempty i)
  case names =>
    intro name
    rw [hcongr (name ∈ ·.names), ← Draft.mem_names_gather r.uses name]
    rcases henv with ⟨he, -⟩ | ⟨he, -, -, -, hempty⟩
    · rw [he]
    · rw [he]
      exact iff_of_false (SortedSet.not_mem_empty name) (hempty name)
  case static =>
    rcases henv with ⟨he, hsome⟩ | ⟨he, hnone, -⟩
    · have hc := r.carries
      cases hcar : sc.carried with
      | none => simp [hcar] at hsome
      | some c =>
        rw [hcar] at hc
        rw [he, ← Env.isEmpty_iff, hc.1]
        simp
    · rw [he]
      exact iff_of_true hnone Env.not_contains_empty
  case children =>
    intro c hc
    rw [r.children]
    exact Draft.mem_children_of_uses r.uses hc

theorem records : s'.Captured around decl := by
  have hs := r.stack_eq
  have hnoted := h.noted_gather hn hs r.uses hd
  have henv := env_of_records r hnoted
  constructor
  case requested =>
    intro e he
    rw [r.stack] at he
    exact h.requested e (hs ▸ List.mem_cons_of_mem d he)
  case slots =>
    intro id x hx y hy
    rcases r.closed_cases hx with ⟨rfl, rfl⟩ | ⟨-, old, ho, e⟩
    · rcases henv with ⟨he, -⟩ | ⟨he, -⟩
      · rw [he] at hy
        exact h.backs_gather hn hs r.uses hy
      · rw [he] at hy
        cases hy
    · rw [e] at hy
      exact h.slots id old ho y hy
  case noted =>
    intro id x hx
    rcases r.closed_cases hx with ⟨rfl, rfl⟩ | ⟨-, old, ho, e⟩
    · rcases henv with ⟨he, -⟩ | ⟨he, -⟩
      · rw [he]
        exact hnoted
      · rw [he]
        exact ⟨fun i hi => absurd hi (SortedSet.not_mem_empty i),
          fun n hn => absurd hn (SortedSet.not_mem_empty n)⟩
    · rw [e]
      exact h.noted id old ho
  case balanced =>
    intro id x hx
    rcases r.closed_cases hx with ⟨rfl, rfl⟩ | ⟨-, old, ho, e⟩
    · exact h.balanced_record hn hd r
    · rw [e]
      refine (h.balanced id old ho).congr (fun c hc => envOf_records r ?_) _
      obtain ⟨⟨child, hchild⟩, -⟩ := hn.closedChild id old ho c hc
      exact (hn.of_cons hs).open_ne_closed List.mem_cons_self hchild

end

theorem effect (h : s.Captured around decl) (hn : s.Nested around) (hd : s.Declared decl)
    (e : s.Effect s') (hn' : s'.Nested around')
    (ha : ∀ id, id < s.freshScope → around' id = around id)
    (hv : ∀ v, v < s.freshLocal → decl' v = decl v) : s'.Captured around' decl' := by
  have hold : ∀ v o, decl v = some o → decl' v = decl v := by
    intro v o ho
    exact hv v (hd.fresh v o.1 o.2 ho).1
  cases e with
  | none => exact h.mono hn' ha hold
  | enter span =>
    constructor
    case requested =>
      rw [List.forall_mem_cons]
      refine ⟨by simp, fun d hd x hx => ?_⟩
      have hlt := (hn.opened (d.id, d.children) (List.mem_map_of_mem hd)).2.1
      exact (h.requested d hd x hx).mono (ha d.id hlt) hold
    case slots =>
      intro id sc hsc x hx
      exact (h.slots id sc hsc x hx).mono (ha id (hn.closed id sc hsc).2.2) hold
    case noted => exact h.noted
    case balanced => exact h.balanced
  | @declare d outer p hs _ =>
    refine mono (h.of_stack ?_ rfl) hn' ha hold
    rw [hs, List.forall_mem_cons]
    exact ⟨⟨d, List.mem_cons_self, rfl, rfl⟩, fun e he => ⟨e, List.mem_cons_of_mem d he, rfl, rfl⟩⟩
  | @begin d outer hs =>
    refine mono (h.of_stack ?_ rfl) hn' ha hold
    rw [hs, List.forall_mem_cons]
    exact ⟨⟨d, List.mem_cons_self, rfl, rfl⟩, fun e he => ⟨e, List.mem_cons_of_mem d he, rfl, rfl⟩⟩
  | request hs hg => exact (h.request hn hd hs hg).mono hn' ha hold
  | @pop d outer hs =>
    refine mono (h.of_stack (fun e he => ?_) rfl) hn' ha hold
    exact ⟨e, hs ▸ List.mem_cons_of_mem d he, rfl, rfl⟩
  | @prune d outer body u hs _ => exact (h.prune hs u).mono hn' ha hold
  | abandon r => exact (h.records hn hd r).mono hn' (r.freshScope ▸ ha) hold
  | @attach d _ _ _ s₁ r =>
    have hr : (s₁.attach d.id).Captured around decl := by
      refine (h.records hn hd r).of_stack (fun e he => ?_) (closed_attach s₁ d.id)
      obtain ⟨old, ho, heq⟩ := mem_stack_attach he
      exact ⟨old, ho, by rw [heq], by rw [heq]⟩
    refine hr.mono hn' ?_ hold
    rw [freshScope_attach, r.freshScope]
    exact ha

end Captured

/-- The ghost functions exist for every session. -/
theorem Reachable.history {s : Session} (h : Reachable s) :
    ∃ around decl, s.Nested around ∧ s.Declared decl ∧ s.Captured around decl := by
  refine h.induction (P := fun s => ∃ around decl, s.Nested around ∧ s.Declared decl ∧
    s.Captured around decl) ⟨_, _, nested_new, .new, .new⟩ ?_
  rintro s s' e ⟨around, decl, hn, hd, hc⟩
  obtain ⟨around', ha, hn'⟩ := hn.effect e
  obtain ⟨decl', hv, hd'⟩ := hd.effect hn e
  exact ⟨around', decl', hn', hd', hc.effect hn hd e hn' ha hv⟩

end Session

end ClosureConversion
