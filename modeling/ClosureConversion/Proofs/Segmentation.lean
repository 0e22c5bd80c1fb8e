import ClosureConversion.Proofs.Layouts
import Mathlib.Algebra.GroupWithZero.Nat
import Mathlib.Algebra.Order.BigOperators.Group.List
import Mathlib.Algebra.Order.Group.Nat

/-!
How an environment is cut into carriers.

A chain of carriers may be cut in many ways: each carrier but the last has room for seven values and
the link, the last for eight (`Splits`).  `segmentLengths` fills every carrier before it opens the
next one, so no chain is shorter; and the last carrier is left with a single value only if there is
a single value at all.  The segments of a layout follow these lengths: each holds its slice of the
environment and links to the next (`Segment.Fits`).
-/

namespace ClosureConversion

open Layout (maxFields tailSlot)

/-! ## Lengths -/

/-- A chain of carriers with these numbers of values holds `count` values. -/
structure Splits (lens : List Nat) (count : Nat) : Prop where
  sum : lens.sum = count
  linked : ∀ k ∈ lens.dropLast, k ≤ tailSlot
  final : ∀ k ∈ lens.getLast?, k ≤ maxFields

/-- What a chain can hold. -/
theorem Splits.count_le {lens : List Nat} {count : Nat} (h : Splits lens count)
    (hpos : 1 ≤ count) : 1 ≤ lens.length ∧ count ≤ (lens.length - 1) * tailSlot + maxFields := by
  have hne : lens ≠ [] := by
    rintro rfl
    have hsum : 0 = count := h.sum
    omega
  have hlast := h.final (lens.getLast hne) (List.getLast?_eq_some_getLast hne)
  have hinit : lens.dropLast.sum ≤ (lens.length - 1) * tailSlot := by
    have := List.sum_le_card_nsmul lens.dropLast tailSlot h.linked
    rwa [List.length_dropLast] at this
  have hsum : lens.dropLast.sum + lens.getLast hne = count := by
    rw [← h.sum]
    conv_rhs => rw [← List.dropLast_append_getLast hne]
    simp
  exact ⟨List.length_pos_iff.mpr hne, by omega⟩

/-- No chain is shorter. -/
theorem Splits.length_segmentLengths_le {lens : List Nat} {n : Nat} (h : Splits lens n)
    (hpos : 1 ≤ n) : (segmentLengths n).length ≤ lens.length := by
  have hslot : tailSlot = 7 := rfl
  have hfields : maxFields = 8 := rfl
  obtain ⟨q, r, he, hsum, h1, -, hone⟩ := segmentLengths_eq hpos
  obtain ⟨hne, hcap⟩ := h.count_le hpos
  rw [he, List.length_append, List.length_replicate, List.length_singleton]
  -- a shorter chain has room for one value more than the full carriers, and two are left
  by_contra hlt
  have hq : (lens.length - 1 + 1) * tailSlot ≤ q * tailSlot :=
    Nat.mul_le_mul_right tailSlot (by omega)
  rw [Nat.succ_mul] at hq
  have hr : r ≠ 1 := by
    intro hr
    have := hone hr
    omega
  omega

/-! ## Segments -/

/-- `s` holds its slice of the values of these types, in front of the segments `after`. -/
structure Segment.Fits (types : List Ty) (s : Segment) (after : List Segment) : Prop where
  /-- It ends where the next one starts, and the last one at the end. -/
  stop : s.start + s.len = (after.head?.map (·.start)).getD types.length
  fields : s.shape.fields =
    (types.drop s.start).take s.len ++ (after.head?.map (·.shape.ty)).toList
  link : ∀ t ∈ after.head?, s.shape.field? tailSlot = some t.shape.ty
  hasTail : s.hasTail = true ↔ after ≠ []

namespace Segments

variable {start : Nat} {types all : List Ty} {s : Segment} {segs before after : List Segment}

theorem start_head (h : Segments start types (s :: after)) : s.start = start := by
  cases h <;> rfl

theorem lens (h : Segments start types segs) :
    segs.map (·.len) = segmentLengths types.length := by
  induction h with
  | last hne hle _ =>
    rw [segmentLengths_of_le (List.length_pos_iff.mpr hne) hle]
    rfl
  | link hlt _ _ ih =>
    rw [segmentLengths_of_lt hlt, List.map_cons, ih, List.length_drop]

/-- The slices, put together, are the whole. -/
theorem slices (h : Segments start types segs) (ha : all.drop start = types) :
    segs.flatMap (fun s => (all.drop s.start).take s.len) = types := by
  induction h with
  | last _ _ _ => simp [ha]
  | link _ _ _ ih =>
    rw [List.flatMap_cons, ih (by rw [← ha, List.drop_drop]), ha, List.take_append_drop]

/-- The segments from one on are a chain of their own. -/
theorem suffix (h : Segments start types (before ++ s :: after)) (ha : all.drop start = types) :
    Segments s.start (all.drop s.start) (s :: after) := by
  induction before generalizing start types with
  | nil => rwa [h.start_head, ha]
  | cons b before ih =>
    generalize hall : b :: before ++ s :: after = segs at h
    cases h with
    | last _ _ _ => exact absurd (List.cons.inj hall).2 (by simp)
    | link _ _ h => exact ih ((List.cons.inj hall).2 ▸ h) (by rw [← ha, List.drop_drop])

theorem fits (h : Segments start types (s :: after)) (ha : all.drop start = types) :
    s.Fits all after := by
  have hlen : types.length = all.length - start := by rw [← ha, List.length_drop]
  cases h with
  | last hne _ hf =>
    have hpos : 0 < types.length := List.length_pos_iff.mpr hne
    refine ⟨?_, ?_, nofun, ?_⟩
    · show start + types.length = all.length
      omega
    · simp [ha, hf]
    · simp [Segment.hasTail, Shape.arity, hf]
  | @link _ _ shape t ts hlt hf h =>
    have htake : (types.take tailSlot).length = tailSlot := by
      rw [List.length_take]
      have : tailSlot ≤ maxFields := by decide
      omega
    refine ⟨h.start_head.symm, ?_, ?_, ?_⟩
    · show shape.fields = (all.drop start).take tailSlot ++ [t.shape.ty]
      rw [ha, hf]
    · rintro _ ⟨⟩
      show shape.fields[tailSlot]? = _
      rw [hf, List.getElem?_append_right htake.le, htake, Nat.sub_self]
      rfl
    · simp [Segment.hasTail, Shape.arity, hf, htake]

end Segments

/-- An environment is cut into as few carriers as a chain can have: all but the last are full, and
the last has one value only if there is no other.  Every environment that is not empty has a layout
of these lengths, whose segments follow one another without a gap from its first value to its last. -/
theorem segmentation_exact :
    (∀ n, 1 ≤ n →
      (segmentLengths n).sum = n ∧
      (∀ k ∈ (segmentLengths n).dropLast, k = tailSlot) ∧
      (∃ k, (segmentLengths n).getLast? = some k ∧ 1 ≤ k ∧ k ≤ maxFields ∧ (k = 1 ↔ n = 1)) ∧
      ∀ lens, Splits lens n → (segmentLengths n).length ≤ lens.length) ∧
    ∀ types, types ≠ [] → ∀ σ, ∃ l σ', Layout.ofTypes types σ = (.ok l, σ') ∧
      l.segments.map (·.len) = segmentLengths types.length ∧
      l.head.start = 0 ∧
      l.segments.flatMap (fun s => (types.drop s.start).take s.len) = types ∧
      ∀ before s after, l.segments = before ++ s :: after → s.Fits types after := by
  constructor
  · intro n hn
    obtain ⟨q, r, he, hsum, h1, h8, hone⟩ := segmentLengths_eq hn
    refine ⟨?_, ?_, ⟨r, ?_, h1, h8, fun hr => ?_, fun hn1 => by omega⟩,
      fun lens hs => hs.length_segmentLengths_le hn⟩
    · rw [he]
      simpa using hsum
    · intro k hk
      rw [he, List.dropLast_concat] at hk
      exact List.eq_of_mem_replicate hk
    · rw [he, List.getLast?_concat]
    · rw [hone hr] at hsum
      omega
  · intro types hne σ
    obtain ⟨l, σ', e, hs⟩ := Layout.ofTypes_isOk hne σ
    refine ⟨l, σ', e, hs.lens, hs.start_head, hs.slices List.drop_zero, ?_⟩
    intro before s after hl
    rw [hl] at hs
    exact (hs.suffix List.drop_zero).fits rfl

/-- Sixteen values take three carriers, the last with two of them. -/
theorem segmentation_exact_sixteen :
    segmentLengths 16 = [7, 7, 2] ∧
    (∀ lens, Splits lens 16 → 3 ≤ lens.length) ∧
    ∃ l σ', Layout.ofTypes (List.replicate 16 .int) {} = (.ok l, σ') ∧
      l.segments.map (·.len) = [7, 7, 2] ∧
      l.segments.flatMap (fun s => ((List.replicate 16 Ty.int).drop s.start).take s.len) =
        List.replicate 16 .int := by
  have hlens : segmentLengths 16 = [7, 7, 2] := by decide +kernel
  obtain ⟨-, -, -, hmin⟩ := segmentation_exact.1 16 (by decide)
  obtain ⟨l, σ', e, hl, -, hs, -⟩ := segmentation_exact.2 (List.replicate 16 .int) (by decide) {}
  rw [List.length_replicate, hlens] at hl
  rw [hlens] at hmin
  exact ⟨hlens, hmin, l, σ', e, hl, hs⟩

end ClosureConversion
