/-!
Finite sets kept as strictly ascending lists, so that two sets with the same members are equal
(`SortedSet.ext_mem`) and the list of a set is its members in order.
-/

namespace ClosureConversion

structure SortedSet (α : Type) [Ord α] where
  toList : List α
  ascending : toList.Pairwise fun a b => compare a b = .lt

namespace SortedSet

variable {α : Type} [Ord α]

instance [DecidableEq α] : DecidableEq (SortedSet α) := fun s t =>
  decidable_of_iff (s.toList = t.toList) <| by
    cases s; cases t; simp

def empty : SortedSet α := ⟨[], .nil⟩

instance : Inhabited (SortedSet α) := ⟨empty⟩

instance : Membership α (SortedSet α) := ⟨fun s a => a ∈ s.toList⟩

instance [DecidableEq α] (a : α) (s : SortedSet α) : Decidable (a ∈ s) :=
  inferInstanceAs (Decidable (a ∈ s.toList))

@[simp] theorem not_mem_empty (a : α) : ¬ a ∈ (empty : SortedSet α) := List.not_mem_nil

/-! ## Insertion -/

def insertList (a : α) : List α → List α
  | [] => [a]
  | b :: bs =>
    match compare a b with
    | .lt => a :: b :: bs
    | .eq => b :: bs
    | .gt => b :: insertList a bs

theorem mem_insertList [Std.LawfulEqOrd α] (a x : α) (l : List α) :
    x ∈ insertList a l ↔ x = a ∨ x ∈ l := by
  induction l with
  | nil => simp [insertList]
  | cons b bs ih =>
    unfold insertList
    split
    · simp
    · rename_i h
      rw [Std.LawfulEqCmp.eq_of_compare h]
      simp
    · simp [ih, or_left_comm]

theorem ascending_insertList [Std.TransOrd α] [Std.LawfulEqOrd α] (a : α) {l : List α}
    (h : l.Pairwise fun a b => compare a b = .lt) :
    (insertList a l).Pairwise fun a b => compare a b = .lt := by
  induction l with
  | nil => simp [insertList]
  | cons b bs ih =>
    obtain ⟨hb, hbs⟩ := List.pairwise_cons.mp h
    unfold insertList
    split
    · rename_i hab
      refine List.pairwise_cons.mpr ⟨fun x hx => ?_, h⟩
      rcases List.mem_cons.mp hx with rfl | hx
      · exact hab
      · exact Std.TransCmp.lt_trans hab (hb x hx)
    · exact h
    · rename_i hab
      refine List.pairwise_cons.mpr ⟨fun x hx => ?_, ih hbs⟩
      rcases (mem_insertList a x bs).mp hx with rfl | hx
      · exact Std.OrientedCmp.gt_iff_lt.mp hab
      · exact hb x hx

section

variable [Std.TransOrd α] [Std.LawfulEqOrd α]

def insert (s : SortedSet α) (a : α) : SortedSet α :=
  ⟨insertList a s.toList, ascending_insertList a s.ascending⟩

def union (s t : SortedSet α) : SortedSet α := t.toList.foldl insert s

@[simp] theorem mem_insert (s : SortedSet α) (a x : α) : x ∈ s.insert a ↔ x = a ∨ x ∈ s :=
  mem_insertList a x s.toList

theorem mem_foldl_insert (l : List α) (s : SortedSet α) (x : α) :
    x ∈ l.foldl insert s ↔ x ∈ l ∨ x ∈ s := by
  induction l generalizing s with
  | nil => simp
  | cons a l ih => simp [ih, or_assoc, or_left_comm]

@[simp] theorem mem_union (s t : SortedSet α) (x : α) : x ∈ s.union t ↔ x ∈ t ∨ x ∈ s :=
  mem_foldl_insert t.toList s x

/-- A set is determined by its members. -/
theorem ext_mem {s t : SortedSet α} (h : ∀ x, x ∈ s ↔ x ∈ t) : s = t := by
  obtain ⟨l, hl⟩ := s
  obtain ⟨k, hk⟩ := t
  change ∀ x, x ∈ l ↔ x ∈ k at h
  suffices l = k by subst this; rfl
  induction l generalizing k with
  | nil =>
    cases k with
    | nil => rfl
    | cons b bs => exact absurd ((h b).mpr List.mem_cons_self) List.not_mem_nil
  | cons a as ih =>
    cases k with
    | nil => exact absurd ((h a).mp List.mem_cons_self) List.not_mem_nil
    | cons b bs =>
      obtain ⟨ha, has⟩ := List.pairwise_cons.mp hl
      obtain ⟨hb, hbs⟩ := List.pairwise_cons.mp hk
      have irrefl : ∀ x : α, ¬ compare x x = .lt := by simp
      have hab : a = b := by
        rcases List.mem_cons.mp ((h a).mp List.mem_cons_self) with e | ma
        · exact e
        · rcases List.mem_cons.mp ((h b).mpr List.mem_cons_self) with e | mb
          · exact e.symm
          · exact absurd (Std.TransCmp.lt_trans (ha b mb) (hb a ma)) (irrefl a)
      subst hab
      congr 1
      refine ih has bs hbs fun x => ?_
      have hx := h x
      simp only [List.mem_cons] at hx
      constructor
      · intro m
        rcases hx.mp (.inr m) with rfl | m'
        · exact absurd (ha x m) (irrefl x)
        · exact m'
      · intro m
        rcases hx.mpr (.inr m) with rfl | m'
        · exact absurd (hb x m) (irrefl x)
        · exact m'

end

section

variable [DecidableEq α]

def isSubset (s t : SortedSet α) : Bool := s.toList.all (· ∈ t)

/-- The least member of `s` that `t` lacks. -/
def firstMissing? (s t : SortedSet α) : Option α := s.toList.find? (· ∉ t)

end

end SortedSet

end ClosureConversion
