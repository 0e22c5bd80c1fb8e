import ClosureConversion.Env

/-!
What the operations on captured environments do to the set of captured values, to the slots and to
the inputs noted beside them.

Slots are only ever added at the end, and only for a value that has none, so every statement here is
about membership: `contains_insert`, `contains_request` and `contains_forward` for the values,
`mem_slots_insert` and `mem_slots_forward` for the slots themselves.
-/

namespace ClosureConversion

namespace Env

/-! ## Looking a value up -/

theorem contains_iff (env : Env) (v : Capture) :
    env.contains v = true ↔ ∃ s ∈ env.slots, s.value = v := by
  simp [contains, indexOf?]

theorem contains_of_mem {env : Env} {s : Slot} (h : s ∈ env.slots) : env.contains s.value = true :=
  (env.contains_iff s.value).mpr ⟨s, h, rfl⟩

theorem mem_of_slot? {env : Env} {v : Capture} {s : Slot} (h : env.slot? v = some s) :
    s ∈ env.slots ∧ s.value = v := by
  have hv := List.find?_some h
  exact ⟨List.mem_of_find?_eq_some h, by simpa using hv⟩

theorem slot?_eq_none_iff (env : Env) (v : Capture) :
    env.slot? v = none ↔ ¬ env.contains v = true := by
  rw [contains_iff]
  simp [slot?]

theorem not_contains_empty (v : Capture) : ¬ ({} : Env).contains v = true := by
  simp [contains_iff]

theorem isEmpty_iff (env : Env) : env.isEmpty = true ↔ ∀ v, ¬ env.contains v = true := by
  simp only [contains_iff, isEmpty, List.isEmpty_iff]
  constructor
  · intro h v
    simp [h]
  · intro h
    rw [List.eq_nil_iff_forall_not_mem]
    intro s hs
    exact h s.value ⟨s, hs, rfl⟩

/-! ## Adding a slot -/

theorem slots_insert (env : Env) (s : Slot) :
    (env.insert s).slots = if env.contains s.value then env.slots else env.slots ++ [s] := by
  unfold insert place contains
  cases env.indexOf? s.value <;> simp

@[simp] theorem indices_insert (env : Env) (s : Slot) : (env.insert s).indices = env.indices := by
  unfold insert place
  cases env.indexOf? s.value <;> rfl

@[simp] theorem names_insert (env : Env) (s : Slot) : (env.insert s).names = env.names := by
  unfold insert place
  cases env.indexOf? s.value <;> rfl

theorem mem_slots_insert (env : Env) (s x : Slot) :
    x ∈ (env.insert s).slots ↔ x ∈ env.slots ∨ ¬ env.contains s.value = true ∧ x = s := by
  rw [slots_insert]
  by_cases h : env.contains s.value = true <;> simp [h]

@[simp] theorem contains_insert (env : Env) (s : Slot) (v : Capture) :
    (env.insert s).contains v = true ↔ env.contains v = true ∨ s.value = v := by
  simp only [contains_iff, mem_slots_insert]
  constructor
  · rintro ⟨x, hx | ⟨-, rfl⟩, rfl⟩
    · exact .inl ⟨x, hx, rfl⟩
    · exact .inr rfl
  · rintro (⟨x, hx, rfl⟩ | rfl)
    · exact ⟨x, .inl hx, rfl⟩
    · by_cases h : ∃ x ∈ env.slots, x.value = s.value
      · obtain ⟨x, hx, hv⟩ := h
        exact ⟨x, .inl hx, hv⟩
      · exact ⟨s, .inr ⟨h, rfl⟩, rfl⟩

/-- The slot of a value that has one stays. -/
theorem slot?_insert (env : Env) (s : Slot) (v : Capture) :
    (env.insert s).slot? v = (env.slot? v).or (if s.value = v then some s else none) := by
  unfold slot?
  rw [slots_insert]
  by_cases hc : env.contains s.value = true
  · rw [if_pos hc]
    by_cases hv : s.value = v
    · subst hv
      cases hs : env.slot? s.value with
      | none => exact absurd hc ((slot?_eq_none_iff env s.value).mp hs)
      | some x =>
        unfold slot? at hs
        rw [hs]
        rfl
    · rw [if_neg hv, Option.or_none]
  · rw [if_neg hc, List.find?_append, List.find?_singleton]
    simp only [beq_iff_eq]

/-! ## Requests -/

@[simp] theorem slots_note (env : Env) (r : Request) : (env.note r).slots = env.slots := by
  cases r <;> rfl

theorem contains_note (env : Env) (r : Request) (v : Capture) :
    (env.note r).contains v = env.contains v := by
  simp [contains, indexOf?]

theorem request_eq (env : Env) (r : Request) : env.request r = (env.note r).insert r.toSlot := rfl

@[simp] theorem contains_request (env : Env) (r : Request) (v : Capture) :
    (env.request r).contains v = true ↔ env.contains v = true ∨ r.toSlot.value = v := by
  rw [request_eq, contains_insert, contains_note]

theorem mem_slots_request (env : Env) (r : Request) (x : Slot) :
    x ∈ (env.request r).slots ↔
      x ∈ env.slots ∨ ¬ env.contains r.toSlot.value = true ∧ x = r.toSlot := by
  rw [request_eq, mem_slots_insert, contains_note, slots_note]

theorem slot?_request (env : Env) (r : Request) (v : Capture) :
    (env.request r).slot? v =
      (env.slot? v).or (if r.toSlot.value = v then some r.toSlot else none) := by
  rw [request_eq, slot?_insert]
  unfold slot?
  rw [slots_note]

@[simp] theorem indices_request (env : Env) (r : Request) :
    (env.request r).indices = (env.note r).indices := by
  rw [request_eq, indices_insert]

theorem mem_indices_request {env : Env} {i : Nat} (h : i ∈ env.indices) (r : Request) :
    i ∈ (env.request r).indices := by
  rw [indices_request]
  cases r with
  | argument j => exact (SortedSet.mem_insert _ _ _).mpr (.inr h)
  | _ => exact h

@[simp] theorem names_request (env : Env) (r : Request) :
    (env.request r).names = (env.note r).names := by
  rw [request_eq, names_insert]

/-! ## Forwarding from a child -/

theorem contains_foldl_insert (slots : List Slot) (env : Env) (v : Capture) :
    (slots.foldl insert env).contains v = true ↔
      env.contains v = true ∨ ∃ s ∈ slots, s.value = v := by
  induction slots generalizing env with
  | nil => simp
  | cons s slots ih =>
    rw [List.foldl_cons, ih, contains_insert]
    simp only [List.mem_cons, exists_eq_or_imp]
    rw [or_assoc]

theorem mem_slots_foldl_insert (slots : List Slot) (env : Env) (x : Slot)
    (h : x ∈ (slots.foldl insert env).slots) : x ∈ env.slots ∨ x ∈ slots := by
  induction slots generalizing env with
  | nil => exact .inl h
  | cons s slots ih =>
    rcases ih (env.insert s) h with h | h
    · rcases (mem_slots_insert env s x).mp h with h | ⟨-, rfl⟩
      · exact .inl h
      · exact .inr List.mem_cons_self
    · exact .inr (List.mem_cons_of_mem s h)

theorem contains_forward (env child : Env) (scope : ScopeId) (v : Capture) :
    (env.forward child scope).contains v = true ↔
      env.contains v = true ∨ ∃ s ∈ child.slots, s.owner ≠ scope ∧ s.value = v := by
  have h := contains_foldl_insert (child.slots.filter (·.owner ≠ scope)) env v
  simp only [List.mem_filter, decide_eq_true_eq, and_assoc] at h
  exact h

theorem mem_slots_forward {env child : Env} {scope : ScopeId} {x : Slot}
    (h : x ∈ (env.forward child scope).slots) :
    x ∈ env.slots ∨ x ∈ child.slots ∧ x.owner ≠ scope := by
  rcases mem_slots_foldl_insert (child.slots.filter (·.owner ≠ scope)) env x h with h | h
  · exact .inl h
  · exact .inr (by simpa using h)

@[simp] theorem mem_indices_forward (env child : Env) (scope : ScopeId) (i : Nat) :
    i ∈ (env.forward child scope).indices ↔ i ∈ child.indices ∨ i ∈ env.indices :=
  SortedSet.mem_union env.indices child.indices i

@[simp] theorem mem_names_forward (env child : Env) (scope : ScopeId) (name : String) :
    name ∈ (env.forward child scope).names ↔ name ∈ child.names ∨ name ∈ env.names :=
  SortedSet.mem_union env.names child.names name

/-! ## Inclusion -/

theorem isSubset_iff (a b : Env) :
    a.isSubset b = true ↔
      (∀ s ∈ a.slots, b.contains s.value = true) ∧ ∀ i ∈ a.indices, i ∈ b.indices := by
  simp only [isSubset, SortedSet.isSubset, Bool.and_eq_true, List.all_eq_true, decide_eq_true_eq]
  rfl

end Env

end ClosureConversion
