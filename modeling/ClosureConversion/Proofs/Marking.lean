import ClosureConversion.Proofs.Retire

/-!
Retiring as a loop.

`ScopeTable.retire` searches the table first and changes it afterwards.  `Marking.step` does both at
once: it takes a scope from a stack and, if this is alive, marks it dead and puts its children on the
stack.  The stack can grow at every step and hold a scope many times, and the table can have cycles,
shared children and children that are missing.

What one step does: `Marking.work` falls by one, so every run ends (`exists_run`); only a flag changes
(`revived_step`); and the scopes that are spared, those alive to which no path of living scopes leads
from the stack, stay the same (`spared_step`).  At the end the stack is empty and the spared scopes are
those alive.
-/

namespace ClosureConversion

def Scope.retired (s : Scope) : Scope := { s with alive := false }

namespace ScopeTable

/-- The scope `id` is in the table and dead. -/
def Dead (t : ScopeTable) (id : ScopeId) : Prop := ∃ s, t.get? id = some s ∧ s.alive = false

theorem dead_iff (t : ScopeTable) (id : ScopeId) :
    t.Dead id ↔ (t.get? id).isSome = true ∧ ¬ t.Alive id := by
  unfold Dead Alive
  cases t.get? id <;> simp

/-- How many children the living scopes have, each counted as often as it is listed. -/
def links (t : ScopeTable) : Nat := (t.living.flatMap t.childrenOf).length

theorem links_congr {t t' : ScopeTable} (h : t.Equiv t') : t.links = t'.links := by
  unfold links living childrenOf
  simp only [Std.TreeMap.get?_eq_getElem?, h.toList_eq, h.getElem?_eq]

theorem revived_retire (t : ScopeTable) (root id : ScopeId) :
    ((t.retire root).get? id).map Scope.revived = (t.get? id).map Scope.revived := by
  obtain ⟨alive, h⟩ := get?_retireAll t [root] id
  change ((t.retireAll [root]).get? id).map Scope.revived = _
  rw [h, Option.map_map]
  rfl

/-- Tables that differ only in flags, and in which the same scope is alive, have it alike. -/
theorem get?_eq_of_revived {t t' : ScopeTable} {id : ScopeId}
    (h : (t.get? id).map Scope.revived = (t'.get? id).map Scope.revived)
    (ha : t.Alive id ↔ t'.Alive id) : t.get? id = t'.get? id := by
  cases hs : t.get? id with
  | none =>
    rw [hs] at h
    exact (Option.map_eq_none_iff.mp h.symm).symm
  | some s =>
    rw [hs] at h
    obtain ⟨s', hs', e⟩ := Option.map_eq_some_iff.mp h.symm
    rw [alive_iff hs, alive_iff hs', ← Bool.eq_iff_iff] at ha
    have restore : ∀ x : Scope, x = { x.revived with alive := x.alive } := fun _ => rfl
    rw [hs', restore s, restore s', e, ha]

/-! ## Marking one scope -/

/-- Marks a scope dead, but no other within it. -/
def retireOnly (t : ScopeTable) (id : ScopeId) : ScopeTable := t.modify id Scope.retired

theorem get?_retireOnly (t : ScopeTable) (id x : ScopeId) :
    (t.retireOnly id).get? x = if id = x then (t.get? x).map Scope.retired else t.get? x := by
  simp only [retireOnly, Std.TreeMap.get?_eq_getElem?, Std.TreeMap.getElem?_modify,
    Std.compare_eq_iff_eq]
  split
  · next h => rw [h]
  · rfl

theorem revived_retireOnly (t : ScopeTable) (id x : ScopeId) :
    ((t.retireOnly id).get? x).map Scope.revived = (t.get? x).map Scope.revived := by
  rw [get?_retireOnly]
  split
  · rw [Option.map_map]
    rfl
  · rfl

theorem childrenOf_retireOnly (t : ScopeTable) (id x : ScopeId) :
    (t.retireOnly id).childrenOf x = t.childrenOf x := by
  unfold childrenOf
  rw [get?_retireOnly]
  split
  · cases t.get? x <;> rfl
  · rfl

theorem alive_retireOnly (t : ScopeTable) (id x : ScopeId) :
    (t.retireOnly id).Alive x ↔ x ≠ id ∧ t.Alive x := by
  unfold Alive
  rw [get?_retireOnly]
  by_cases h : id = x
  · simp [h, Scope.retired]
  · simp [h, Ne.symm h]

theorem living_retireOnly (t : ScopeTable) (id : ScopeId) :
    (t.retireOnly id).living.Perm (t.living.erase id) := by
  rw [List.perm_ext_iff_of_nodup (nodup_living _) ((nodup_living t).erase id)]
  intro x
  rw [mem_living, alive_retireOnly, List.Nodup.mem_erase_iff (nodup_living t), mem_living]

/-- The children of the marked scope are no longer counted. -/
theorem links_retireOnly {t : ScopeTable} {id : ScopeId} (h : t.Alive id) :
    (t.childrenOf id).length + (t.retireOnly id).links = t.links := by
  have hliving : t.living.Perm (id :: t.living.erase id) :=
    List.perm_cons_erase ((mem_living t id).mpr h)
  have hchildren : (t.retireOnly id).childrenOf = t.childrenOf :=
    funext (childrenOf_retireOnly t id)
  unfold links
  rw [hchildren, ((living_retireOnly t id).flatMap_right _).length_eq,
    (hliving.flatMap_right _).length_eq, List.flatMap_cons, List.length_append]

theorem path_retireOnly (t : ScopeTable) (id : ScopeId) {a b : ScopeId} :
    Path (t.retireOnly id) (t.retireOnly id).living a b ↔ Path t (t.living.erase id) a b := by
  have hmem : ∀ x, x ∈ (t.retireOnly id).living ↔ x ∈ t.living.erase id := fun x =>
    (living_retireOnly t id).mem_iff
  constructor
  · intro p
    exact p.transport (fun x hx => (hmem x).mp hx) fun x => (childrenOf_retireOnly t id x).symm
  · intro p
    exact p.transport (fun x hx => (hmem x).mpr hx) (childrenOf_retireOnly t id)

end ScopeTable

/-! ## The loop -/

/-- A loop under way: the scopes still to be looked at, the next one first, and the table so far. -/
structure Marking where
  stack : List ScopeId
  table : ScopeTable

namespace Marking

open ScopeTable (Path)

/-- Looks at the next scope.  If it is alive, it is marked and its children come next, the last one
first; a scope that is dead or missing is passed over. -/
def step : Marking → Option Marking
  | ⟨[], _⟩ => none
  | ⟨id :: stack, t⟩ =>
    match t.get? id with
    | some s =>
      if s.alive then some ⟨s.children.reverse ++ stack, t.retireOnly id⟩ else some ⟨stack, t⟩
    | none => some ⟨stack, t⟩

/-- `n` steps lead from one state of the loop to another. -/
inductive Runs : Nat → Marking → Marking → Prop
  | refl (m : Marking) : Runs 0 m m
  | step {n : Nat} {m m' m'' : Marking} : m.step = some m' → Runs n m' m'' → Runs (n + 1) m m''

/-- What a step does, by whether the next scope is alive. -/
theorem step_cons (id : ScopeId) (stack : List ScopeId) (t : ScopeTable) :
    t.Alive id ∧ step ⟨id :: stack, t⟩ =
      some ⟨(t.childrenOf id).reverse ++ stack, t.retireOnly id⟩ ∨
    ¬ t.Alive id ∧ step ⟨id :: stack, t⟩ = some ⟨stack, t⟩ := by
  cases hs : t.get? id with
  | none =>
    refine .inr ⟨fun ha => ?_, by simp only [step, hs]⟩
    obtain ⟨s, hsome⟩ := ha.get?
    cases hs.symm.trans hsome
  | some s =>
    have hc : t.childrenOf id = s.children := by simp only [ScopeTable.childrenOf, hs, Option.elim_some]
    rw [ScopeTable.alive_iff hs, hc]
    cases ha : s.alive with
    | true => exact .inl ⟨rfl, by simp only [step, hs, ha, if_true]⟩
    | false => exact .inr ⟨nofun, by simp only [step, hs, ha, Bool.false_eq_true, if_false]⟩

theorem step_cases {m m' : Marking} (h : m.step = some m') :
    ∃ id stack, m.stack = id :: stack ∧
      (m.table.Alive id ∧
        m' = ⟨(m.table.childrenOf id).reverse ++ stack, m.table.retireOnly id⟩ ∨
      ¬ m.table.Alive id ∧ m' = ⟨stack, m.table⟩) := by
  obtain ⟨_ | ⟨id, stack⟩, t⟩ := m
  · cases h
  · refine ⟨id, stack, rfl, ?_⟩
    rcases step_cons id stack t with ⟨ha, e⟩ | ⟨ha, e⟩
    · exact .inl ⟨ha, Option.some.inj (h.symm.trans e)⟩
    · exact .inr ⟨ha, Option.some.inj (h.symm.trans e)⟩

/-! ## What a step keeps -/

/-- The number of steps still to come, at most. -/
def work (m : Marking) : Nat := m.stack.length + m.table.links

/-- Alive, and no living path leads to it from the stack. -/
def Spared (m : Marking) (x : ScopeId) : Prop :=
  m.table.Alive x ∧ ¬ ∃ r ∈ m.stack, Path m.table m.table.living r x

theorem work_step {m m' : Marking} (h : m.step = some m') : m'.work + 1 = m.work := by
  obtain ⟨id, stack, hs, ⟨ha, rfl⟩ | ⟨-, rfl⟩⟩ := step_cases h
  · have hlinks := ScopeTable.links_retireOnly ha
    simp only [work, hs, List.length_append, List.length_reverse, List.length_cons]
    omega
  · simp only [work, hs, List.length_cons]
    omega

theorem revived_step {m m' : Marking} (h : m.step = some m') (x : ScopeId) :
    (m'.table.get? x).map Scope.revived = (m.table.get? x).map Scope.revived := by
  obtain ⟨id, stack, -, ⟨-, rfl⟩ | ⟨-, rfl⟩⟩ := step_cases h
  · exact ScopeTable.revived_retireOnly m.table id x
  · rfl

theorem spared_step {m m' : Marking} (h : m.step = some m') (x : ScopeId) :
    m'.Spared x ↔ m.Spared x := by
  obtain ⟨id, stack, hs, ⟨ha, rfl⟩ | ⟨ha, rfl⟩⟩ := step_cases h
  · -- paths from the marked scope go on from its children, and no other path needs it any more
    have hliving : id ∈ m.table.living := (ScopeTable.mem_living m.table id).mpr ha
    have hnext : (∃ r ∈ id :: stack, Path m.table m.table.living r x) ↔ _ :=
      Path.exists_cons_iff m.table.nodup_living hliving
    unfold Spared
    simp only [hs, hnext, ScopeTable.path_retireOnly, ScopeTable.alive_retireOnly, List.mem_append,
      List.mem_reverse]
    rw [not_or, and_assoc, and_left_comm]
  · have hdead : id ∉ m.table.living := fun hl => ha ((ScopeTable.mem_living m.table id).mp hl)
    unfold Spared
    rw [hs, Path.exists_cons_iff_of_not_mem hdead]

/-! ## Whole runs -/

/-- Every step is paid for from the work at the start. -/
theorem Runs.work_eq {n : Nat} {m m' : Marking} (h : Runs n m m') : n + m'.work = m.work := by
  induction h with
  | refl _ => exact Nat.zero_add _
  | step hstep _ ih =>
    have := work_step hstep
    omega

theorem Runs.revived {n : Nat} {m m' : Marking} (h : Runs n m m') (x : ScopeId) :
    (m'.table.get? x).map Scope.revived = (m.table.get? x).map Scope.revived := by
  induction h with
  | refl _ => rfl
  | step hstep _ ih => exact ih.trans (revived_step hstep x)

theorem Runs.spared {n : Nat} {m m' : Marking} (h : Runs n m m') (x : ScopeId) :
    m'.Spared x ↔ m.Spared x := by
  induction h with
  | refl _ => rfl
  | step hstep _ ih => exact ih.trans (spared_step hstep x)

/-- Every loop comes to its end. -/
theorem exists_run (m : Marking) : ∃ n t, Runs n m ⟨[], t⟩ := by
  -- by induction on the work, since neither the stack nor the number of living scopes falls at each step
  induction hw : m.work generalizing m with
  | zero =>
    obtain ⟨_ | ⟨id, stack⟩, t⟩ := m
    · exact ⟨0, t, .refl _⟩
    · simp [work] at hw
  | succ w ih =>
    obtain ⟨_ | ⟨id, stack⟩, t⟩ := m
    · exact ⟨0, t, .refl _⟩
    · obtain ⟨m', hstep⟩ : ∃ m', step ⟨id :: stack, t⟩ = some m' := by
        rcases step_cons id stack t with ⟨-, e⟩ | ⟨-, e⟩ <;> exact ⟨_, e⟩
      have := work_step hstep
      obtain ⟨n, t', hrun⟩ := ih m' (by omega)
      exact ⟨n + 1, t', .step hstep hrun⟩

/-- The loop changes the table as `retire` does. -/
theorem Runs.equiv_retire {n : Nat} {t t' : ScopeTable} {root : ScopeId}
    (h : Runs n ⟨[root], t⟩ ⟨[], t'⟩) : t'.Equiv (t.retire root) := by
  refine Std.TreeMap.Equiv.of_forall_constGet?_eq fun id => ?_
  refine ScopeTable.get?_eq_of_revived ?_ ?_
  · exact (h.revived id).trans (ScopeTable.revived_retire t root id).symm
  · rw [ScopeTable.alive_retire]
    simpa [Spared] using h.spared id

end Marking

namespace ScopeTable

/-- Retiring a scope is a loop that ends, for every table and every scope.  It takes one step for the
scope and one for each child of a scope that dies; it changes nothing but flags; and a scope is dead
afterwards iff it was before or a path of living scopes leads to it from the retired one. -/
theorem retire_exact (t : ScopeTable) (root : ScopeId) :
    (∃ n t', Marking.Runs n ⟨[root], t⟩ ⟨[], t'⟩ ∧ t'.Equiv (t.retire root) ∧
      n + (t.retire root).links = 1 + t.links) ∧
    (∀ id, ((t.retire root).get? id).map Scope.revived = (t.get? id).map Scope.revived) ∧
    ∀ id, (t.retire root).Dead id ↔ t.Dead id ∨ Path t t.living root id := by
  refine ⟨?ends, revived_retire t root, fun id => ?dead⟩
  case ends =>
    obtain ⟨n, t', hrun⟩ := Marking.exists_run ⟨[root], t⟩
    have heq := hrun.equiv_retire
    have hwork := hrun.work_eq
    refine ⟨n, t', hrun, heq, ?_⟩
    rw [← links_congr heq]
    simpa [Marking.work] using hwork
  case dead =>
    have hsome : ((t.retire root).get? id).isSome = (t.get? id).isSome := by
      simpa using congrArg Option.isSome (revived_retire t root id)
    rw [dead_iff, dead_iff, alive_retire, hsome]
    by_cases hp : Path t t.living root id
    · obtain ⟨s, hs⟩ := ((mem_living t id).mp hp.mem_last).get?
      simp only [hs, hp, Option.isSome_some, not_true_eq_false, and_false, not_false_eq_true, and_self,
        or_true]
    · simp [hp]

-- 1 and 2 have each other and both have 3 as a child, 9 is missing, and 4 was dead before
example :
    let scope (children : List ScopeId) (alive : Bool) : Scope :=
      ⟨0, .dummy, [], .void, none, alive, false, none, children⟩
    let t : ScopeTable := .ofList [(1, scope [2, 3] true), (2, scope [1, 3, 9, 4] true),
      (3, scope [] true), (4, scope [5] false), (5, scope [] true)]
    (t.retire 1).living = [5] ∧ t.links = 6 ∧ (t.retire 1).links = 0 := by
  cbv

end ScopeTable

end ClosureConversion
