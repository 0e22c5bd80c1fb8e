import ClosureConversion.Scope

/-!
What `ScopeTable.retire` does to the table.

`mem_reach` says that the search meets exactly the scopes to which a path leads that stays among the
living ones.  From it, `alive_retire` and `alive_retireAll`: after retiring some scopes, a scope is
alive iff it was alive and no path of living scopes leads to it from one of them.  Nothing but the
`alive` flags changes (`get?_retireAll`).
-/

namespace ClosureConversion

/-- The scope with its flag set. -/
def Scope.revived (sc : Scope) : Scope := { sc with alive := true }

namespace ScopeTable

theorem get?_insert (t : ScopeTable) (k id : ScopeId) (s : Scope) :
    (t.insert k s).get? id = if k = id then some s else t.get? id := by
  simp only [Std.TreeMap.get?_eq_getElem?, Std.TreeMap.getElem?_insert, Std.compare_eq_iff_eq]

/-- The scope `id` is in the table and alive. -/
def Alive (t : ScopeTable) (id : ScopeId) : Prop := ∃ s, t.get? id = some s ∧ s.alive = true

theorem alive_iff {t : ScopeTable} {id : ScopeId} {s : Scope} (h : t.get? id = some s) :
    t.Alive id ↔ s.alive = true := by
  unfold Alive
  rw [h]
  simp

theorem Alive.get? {t : ScopeTable} {id : ScopeId} (h : t.Alive id) :
    ∃ s, t.get? id = some s := by
  obtain ⟨s, hs, -⟩ := h
  exact ⟨s, hs⟩

theorem mem_living (t : ScopeTable) (id : ScopeId) : id ∈ t.living ↔ t.Alive id := by
  unfold living Alive
  simp only [List.mem_filterMap, Prod.exists, Std.TreeMap.mem_toList_iff_getElem?_eq_some,
    Std.TreeMap.get?_eq_getElem?]
  constructor
  · rintro ⟨k, s, hs, h⟩
    split at h
    · next ha =>
      obtain rfl : k = id := by simpa using h
      exact ⟨s, hs, ha⟩
    · cases h
  · rintro ⟨s, hs, ha⟩
    exact ⟨id, s, hs, by simp [ha]⟩

theorem nodup_living (t : ScopeTable) : t.living.Nodup := by
  unfold living
  refine List.Pairwise.filterMap _ ?_ (Std.TreeMap.distinct_keys_toList (t := t))
  rintro ⟨k, s⟩ ⟨l, r⟩ hkl a ha b hb hab
  simp only [Option.ite_none_right_eq_some, Option.some.injEq] at ha hb
  apply hkl
  rw [Std.compare_eq_iff_eq]
  exact ha.2.trans (hab.trans hb.2.symm)

theorem mem_childrenOf {t : ScopeTable} {id c : ScopeId} :
    c ∈ t.childrenOf id ↔ ∃ s, t.get? id = some s ∧ c ∈ s.children := by
  unfold childrenOf
  cases t.get? id <;> simp

/-! ## Paths -/

/-- A path from a scope to one within it, each scope a child of the one before, that stays among
`living`. -/
inductive Path (t : ScopeTable) (living : List ScopeId) : ScopeId → ScopeId → Prop
  | here {id : ScopeId} : id ∈ living → Path t living id id
  | step {id child last : ScopeId} :
      id ∈ living → child ∈ t.childrenOf id → Path t living child last → Path t living id last

namespace Path

variable {t : ScopeTable} {living living' : List ScopeId} {a b c : ScopeId}

theorem mem_first (p : Path t living a b) : a ∈ living := by
  cases p <;> assumption

theorem mem_last (p : Path t living a b) : b ∈ living := by
  induction p with
  | here hb => exact hb
  | step _ _ _ ih => exact ih

theorem trans (p : Path t living a b) (q : Path t living b c) : Path t living a c := by
  induction p with
  | here _ => exact q
  | step h hc _ ih => exact .step h hc (ih q)

/-- A path leads through another table in which the scopes have the same children. -/
theorem transport {t' : ScopeTable} (p : Path t living a b) (hl : ∀ x ∈ living, x ∈ living')
    (hc : ∀ x, t'.childrenOf x = t.childrenOf x) : Path t' living' a b := by
  induction p with
  | here ha => exact .here (hl _ ha)
  | step ha hchild _ ih => exact .step (hl _ ha) ((hc _).symm ▸ hchild) ih

theorem mono (p : Path t living a b) (h : ∀ x ∈ living, x ∈ living') : Path t living' a b :=
  p.transport h fun _ => rfl

/-- The last step of a path, if it has one. -/
theorem last_step (p : Path t living a b) :
    a = b ∨ ∃ q, Path t living a q ∧ b ∈ t.childrenOf q := by
  induction p with
  | here _ => exact .inl rfl
  | @step id child last ha hc _ ih =>
    rcases ih with rfl | ⟨q, hq, hb⟩
    · exact .inr ⟨id, .here ha, hc⟩
    · exact .inr ⟨q, .step ha hc hq, hb⟩

/-- A path that may pass through `id` ends there, avoids it, or has a part behind it that does. -/
theorem avoid (p : Path t living a b) (hn : living.Nodup) (id : ScopeId) :
    b = id ∨ Path t (living.erase id) a b ∨
      ∃ child ∈ t.childrenOf id, Path t (living.erase id) child b := by
  induction p with
  | @here x hx =>
    by_cases h : x = id
    · exact .inl h
    · exact .inr (.inl (.here ((List.Nodup.mem_erase_iff hn).mpr ⟨h, hx⟩)))
  | @step x child last hx hc _ ih =>
    rcases ih with h | h | h
    · exact .inl h
    · by_cases hxid : x = id
      · subst hxid
        exact .inr (.inr ⟨child, hc, h⟩)
      · exact .inr (.inl (.step ((List.Nodup.mem_erase_iff hn).mpr ⟨hxid, hx⟩) hc h))
    · exact .inr (.inr h)

/-- Paths from a stack whose next scope is living: the scope itself is reached, and from here on the
paths start at its children or further down, and avoid it. -/
theorem exists_cons_iff {stack : List ScopeId} {id : ScopeId} (hn : living.Nodup) (hid : id ∈ living) :
    (∃ r ∈ id :: stack, Path t living r b) ↔
      b = id ∨ ∃ r ∈ t.childrenOf id ++ stack, Path t (living.erase id) r b := by
  constructor
  · rintro ⟨r, hr, p⟩
    rcases p.avoid hn id with h | h | ⟨child, hc, h⟩
    · exact .inl h
    · rcases List.mem_cons.mp hr with rfl | hr
      · exact absurd rfl ((List.Nodup.mem_erase_iff hn).mp h.mem_first).1
      · exact .inr ⟨r, List.mem_append.mpr (.inr hr), h⟩
    · exact .inr ⟨child, List.mem_append.mpr (.inl hc), h⟩
  · rintro (rfl | ⟨r, hr, p⟩)
    · exact ⟨b, List.mem_cons_self, .here hid⟩
    · have p' := p.mono fun y => List.mem_of_mem_erase
      rcases List.mem_append.mp hr with hr | hr
      · exact ⟨id, List.mem_cons_self, .step hid hr p'⟩
      · exact ⟨r, List.mem_cons_of_mem id hr, p'⟩

/-- No path starts at a scope that is not living. -/
theorem exists_cons_iff_of_not_mem {stack : List ScopeId} {id : ScopeId} (hid : id ∉ living) :
    (∃ r ∈ id :: stack, Path t living r b) ↔ ∃ r ∈ stack, Path t living r b := by
  constructor
  · rintro ⟨r, hr, p⟩
    rcases List.mem_cons.mp hr with rfl | hr
    · exact absurd p.mem_first hid
    · exact ⟨r, hr, p⟩
  · rintro ⟨r, hr, p⟩
    exact ⟨r, List.mem_cons_of_mem id hr, p⟩

end Path

/-- The search meets a scope iff a path among `living` leads to it from the stack. -/
theorem mem_reach (t : ScopeTable) (living stack : List ScopeId) (hn : living.Nodup)
    (x : ScopeId) : x ∈ t.reach living stack ↔ ∃ r ∈ stack, Path t living r x := by
  fun_induction reach t living stack with
  | case1 living => simp
  | case2 living id stack hid ih => rw [List.mem_cons, ih (hn.erase id), Path.exists_cons_iff hn hid]
  | case3 living id stack hid ih => rw [ih hn, Path.exists_cons_iff_of_not_mem hid]

/-! ## Retiring -/

theorem get?_retire (t : ScopeTable) (root id : ScopeId) :
    (t.retire root).get? id = (t.get? id).map fun s =>
      if id ∈ t.reach t.living [root] then { s with alive := false } else s := by
  simp only [retire, Std.TreeMap.get?_eq_getElem?, Std.TreeMap.getElem?_map]

theorem childrenOf_retire (t : ScopeTable) (root id : ScopeId) :
    (t.retire root).childrenOf id = t.childrenOf id := by
  unfold childrenOf
  rw [get?_retire]
  cases t.get? id with
  | none => rfl
  | some s =>
    simp only [Option.map_some, Option.elim_some]
    split <;> rfl

/-- A retired scope is dead, and so is every scope to which a living path leads from it. -/
theorem alive_retire (t : ScopeTable) (root id : ScopeId) :
    (t.retire root).Alive id ↔ t.Alive id ∧ ¬ Path t t.living root id := by
  have hr := mem_reach t t.living [root] t.nodup_living id
  simp only [List.mem_singleton, exists_eq_left] at hr
  unfold Alive
  rw [get?_retire, ← hr]
  cases t.get? id with
  | none => simp
  | some s =>
    by_cases h : id ∈ t.reach t.living [root] <;> simp [h]

theorem path_retire {t : ScopeTable} {root a b : ScopeId}
    (p : Path (t.retire root) (t.retire root).living a b) : Path t t.living a b := by
  have old : ∀ x ∈ (t.retire root).living, x ∈ t.living := by
    intro x hx
    rw [mem_living] at hx ⊢
    exact ((alive_retire t root x).mp hx).1
  exact p.transport old fun x => (childrenOf_retire t root x).symm

/-- A living path survives, or some scope on it was retired and then so was its end. -/
theorem path_survives {t : ScopeTable} {root a b : ScopeId} (p : Path t t.living a b) :
    Path (t.retire root) (t.retire root).living a b ∨ Path t t.living root b := by
  have kept : ∀ x ∈ t.living, x ∈ (t.retire root).living ∨ Path t t.living root x := by
    intro x hx
    by_cases h : Path t t.living root x
    · exact .inr h
    · exact .inl ((mem_living _ x).mpr ((alive_retire t root x).mpr ⟨(mem_living t x).mp hx, h⟩))
  induction p with
  | here h =>
    rcases kept _ h with h | h
    · exact .inl (.here h)
    · exact .inr h
  | @step x child last hx hc p ih =>
    rcases ih with ih | ih
    · rcases kept x hx with h | h
      · exact .inl (.step h ((childrenOf_retire t root x).symm ▸ hc) ih)
      · exact .inr (h.trans (.step hx hc p))
    · exact .inr ih

/-- Retires several scopes, one after the other. -/
def retireAll (t : ScopeTable) (roots : List ScopeId) : ScopeTable := roots.foldl retire t

theorem alive_retireAll (t : ScopeTable) (roots : List ScopeId) (id : ScopeId) :
    (t.retireAll roots).Alive id ↔ t.Alive id ∧ ∀ r ∈ roots, ¬ Path t t.living r id := by
  induction roots generalizing t with
  | nil => simp [retireAll]
  | cons r roots ih =>
    rw [retireAll, List.foldl_cons, ← retireAll, ih, alive_retire, List.forall_mem_cons]
    constructor
    · rintro ⟨⟨ha, hr⟩, h⟩
      refine ⟨ha, hr, fun r' hr' p => ?_⟩
      rcases path_survives p with p | p
      · exact h r' hr' p
      · exact hr p
    · rintro ⟨ha, hr, h⟩
      exact ⟨⟨ha, hr⟩, fun r' hr' p => h r' hr' (path_retire p)⟩

/-- Nothing but the flags changes. -/
theorem get?_retireAll (t : ScopeTable) (roots : List ScopeId) (id : ScopeId) :
    ∃ alive : Scope → Bool,
      (t.retireAll roots).get? id = (t.get? id).map fun s => { s with alive := alive s } := by
  induction roots generalizing t with
  | nil => exact ⟨Scope.alive, by simp [retireAll]⟩
  | cons r roots ih =>
    obtain ⟨f, hf⟩ := ih (t.retire r)
    rw [retireAll, List.foldl_cons, ← retireAll, hf, get?_retire]
    by_cases h : id ∈ t.reach t.living [r]
    · refine ⟨fun s => f { s with alive := false }, ?_⟩
      simp [h, Option.map_map, Function.comp_def]
    · refine ⟨f, ?_⟩
      simp [h]

theorem get?_retireAll_eq_none_iff (t : ScopeTable) (roots : List ScopeId) (id : ScopeId) :
    (t.retireAll roots).get? id = none ↔ t.get? id = none := by
  obtain ⟨alive, h⟩ := get?_retireAll t roots id
  rw [h, Option.map_eq_none_iff]

theorem get?_of_retireAll {t : ScopeTable} {roots : List ScopeId} {id : ScopeId} {s : Scope}
    (h : (t.retireAll roots).get? id = some s) :
    ∃ old, t.get? id = some old ∧ s = { old with alive := s.alive } := by
  obtain ⟨alive, e⟩ := get?_retireAll t roots id
  rw [e, Option.map_eq_some_iff] at h
  obtain ⟨old, ho, rfl⟩ := h
  exact ⟨old, ho, rfl⟩

theorem get?_retireAll_of_get? {t : ScopeTable} (roots : List ScopeId) {id : ScopeId} {s : Scope}
    (h : t.get? id = some s) :
    ∃ alive, (t.retireAll roots).get? id = some { s with alive := alive } := by
  obtain ⟨alive, e⟩ := get?_retireAll t roots id
  exact ⟨alive s, by rw [e, h, Option.map_some]⟩

/-- A scope is as it was, or it has died because a living path leads to it from a retired one. -/
theorem get?_retireAll_cases {t : ScopeTable} (roots : List ScopeId) {id : ScopeId} {s : Scope}
    (h : t.get? id = some s) :
    (t.retireAll roots).get? id = some s ∨
      (t.retireAll roots).get? id = some { s with alive := false } ∧
        ∃ r ∈ roots, Path t t.living r id := by
  obtain ⟨alive, hget⟩ := get?_retireAll_of_get? roots h
  have hall := alive_retireAll t roots id
  rw [alive_iff hget, alive_iff h] at hall
  cases alive with
  | true =>
    have hs : s.alive = true := (hall.mp rfl).1
    exact .inl (hget.trans (by rw [← hs]))
  | false =>
    cases hs : s.alive with
    | false => exact .inl (hget.trans (by rw [← hs]))
    | true =>
      have hp : ¬ ∀ r ∈ roots, ¬ Path t t.living r id := fun hp => by simpa using hall.mpr ⟨hs, hp⟩
      exact .inr ⟨hget, by simpa using hp⟩

end ScopeTable

end ClosureConversion
