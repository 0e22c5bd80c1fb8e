import ClosureConversion.Proofs.Liveness

/-!
Commands that fail.

Only a scope whose body is being built can be lost: `failures_confined` says that every other failure
leaves the session and the store as they were, and that a failure to close such a scope leaves all
as it was but that scope and the scopes within it (`Session.Loses`).
-/

namespace ClosureConversion

theorem Within.cons {t : ScopeTable} {a b c : ScopeId} (h : Within t b c)
    (hb : b ∈ t.childrenOf a) : Within t a c := by
  induction h with
  | self => exact .child .self hb
  | child _ hc ih => exact .child ih hc

theorem ScopeTable.Path.within {t : ScopeTable} {living : List ScopeId} {a b : ScopeId}
    (p : t.Path living a b) : Within t a b := by
  induction p with
  | here _ => exact .self
  | step _ hc _ ih => exact ih.cons hc

namespace Session

/-- The scope `d` is lost: it is open no more, and nothing refers to it.  It may be recorded, as `sc`.
Scopes within it may have died; nothing else is new. -/
structure Loses (s : Session) (d : Draft) (outer : List Draft) (sc : Scope) (s' : Session) : Prop where
  stack : s'.stack = outer
  roots : s'.roots = s.roots
  freshScope : s'.freshScope = s.freshScope
  freshLocal : s'.freshLocal = s.freshLocal
  closed : ∀ id old, s.closed.get? id = some old →
    s'.closed.get? id = some old ∨
      s'.closed.get? id = some { old with alive := false } ∧
        ∃ c ∈ d.children, Within s.closed c id
  recorded : ∀ id, s.closed.get? id = none →
    s'.closed.get? id = none ∨ id = d.id ∧ s'.closed.get? id = some sc
  openParent : ∀ e ∈ s'.stack, d.id ∉ e.children
  closedParent : ∀ id x, s'.closed.get? id = some x → d.id ∉ x.children
  root : d.id ∉ s'.roots

variable {around : ScopeId → List ScopeId} {s s' : Session} {d : Draft} {outer : List Draft}
  {u : BodyUse} {sc : Scope}

/-- Nothing refers to an open scope. -/
theorem Nested.unlisted (hn : s.Nested around) (hs : s.stack = d :: outer) :
    (∀ e ∈ s.stack, d.id ∉ e.children) ∧ (∀ id x, s.closed.get? id = some x → d.id ∉ x.children) ∧
      d.id ∉ s.roots := by
  have hd : s.closed.get? d.id = none := ((hn.of_cons hs).opened _ List.mem_cons_self).2.2
  have absent : ¬ ∃ x, s.closed.get? d.id = some x := by
    rw [hd]
    exact nofun
  refine ⟨fun e he hc => ?_, fun id x hx hc => ?_, fun hr => ?_⟩
  · exact absent (hn.openChild (e.id, e.children) (List.mem_map_of_mem he) d.id hc).1.get?
  · exact absent (hn.closedChild id x hx d.id hc).1
  · exact absent (hn.root d.id hr).1.get?

/-- A scope that is popped and recorded is lost as long as nothing is told of it. -/
theorem Loses.record (h : s.Loses d outer sc s') (hn : s.Nested around) (hs : s.stack = d :: outer)
    (hid : sc.id = d.id) (hcs : sc.children = d.children) : s.Loses d outer sc (s'.put sc) where
  stack := h.stack
  roots := h.roots
  freshScope := h.freshScope
  freshLocal := h.freshLocal
  closed id old hold := by
    have hne : d.id ≠ id := (hn.of_cons hs).open_ne_closed List.mem_cons_self hold
    have hget : (s'.put sc).closed.get? id = s'.closed.get? id := by
      rw [Session.put, ScopeTable.get?_insert, hid, if_neg hne]
    rw [hget]
    exact h.closed id old hold
  recorded id hnone := by
    rw [Session.put, ScopeTable.get?_insert, hid]
    split
    · next he => exact .inr ⟨he.symm, rfl⟩
    · exact h.recorded id hnone
  openParent := h.openParent
  closedParent id x hx := by
    rw [Session.put, ScopeTable.get?_insert] at hx
    split at hx
    · obtain rfl := Option.some.inj hx
      rw [hcs]
      exact (hn.unlisted hs).1 d (hs ▸ List.mem_cons_self)
    · exact h.closedParent id x hx
  root := h.root

end Session

end ClosureConversion
