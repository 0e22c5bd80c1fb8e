import ClosureConversion.Value.Basic

/-!
Compatible types and conforming values.

The front end compares two types, `Ty.accepts`; at run time a value is compared with a type,
`Datum.conforms`.  Two types are compatible iff they are equal, or one of them is `any` under some array
layers and the other has these layers too (`accepts_iff`).  So `any` may stand on either side of this
comparison, but only on one side of the other: a type that accepts `any` need not take every value.

`checks_agree`: a type takes all values of the types that it accepts, except for those types that are
`any` under some number of array layers.
-/

namespace ClosureConversion

namespace Ty

/-! ## Compatible types -/

/-- The type under `n` array layers. -/
def layered : Nat → Ty → Ty
  | 0, t => t
  | n + 1, t => .array (layered n t)

/-- Compatible types are equal, or one is `any` where the other has the same layers around it. -/
theorem accepts_iff (a b : Ty) :
    a.accepts b = true ↔ a = b ∨ ∃ n c, a = layered n .any ∧ b = layered n c ∨
      a = layered n c ∧ b = layered n .any := by
  fun_induction accepts a b with
  | case1 b => exact iff_of_true rfl (.inr ⟨0, b, .inl ⟨rfl, rfl⟩⟩)
  | case2 a _ => exact iff_of_true rfl (.inr ⟨0, a, .inr ⟨rfl, rfl⟩⟩)
  | case3 a b ih =>
    rw [ih]
    constructor
    · rintro (rfl | ⟨n, c, ⟨rfl, rfl⟩ | ⟨rfl, rfl⟩⟩)
      · exact .inl rfl
      · exact .inr ⟨n + 1, c, .inl ⟨rfl, rfl⟩⟩
      · exact .inr ⟨n + 1, c, .inr ⟨rfl, rfl⟩⟩
    · rintro (h | ⟨n, c, h⟩)
      · exact .inl (array.inj h)
      · cases n with
        | zero => simp [layered] at h
        | succ n =>
          simp only [layered, array.injEq] at h
          exact .inr ⟨n, c, h⟩
  | case4 a b ha hb harray =>
    rw [beq_iff_eq]
    refine ⟨.inl, ?_⟩
    rintro (h | ⟨n, c, h⟩)
    · exact h
    · -- `n` layers on both sides: without a layer one side is `any`, and else both are arrays
      cases n with
      | zero =>
        rcases h with ⟨rfl, -⟩ | ⟨-, rfl⟩
        · exact absurd rfl ha
        · exact absurd rfl hb
      | succ n =>
        rcases h with ⟨rfl, rfl⟩ | ⟨rfl, rfl⟩
        · exact (harray _ _ rfl rfl).elim
        · exact (harray _ _ rfl rfl).elim

theorem accepts_refl (t : Ty) : t.accepts t = true := (accepts_iff t t).mpr (.inl rfl)

theorem accepts_symm {t u : Ty} (h : t.accepts u = true) : u.accepts t = true := by
  rw [accepts_iff] at h ⊢
  rcases h with rfl | ⟨n, c, h | h⟩
  · exact .inl rfl
  · exact .inr ⟨n, c, .inr h.symm⟩
  · exact .inr ⟨n, c, .inl h.symm⟩

end Ty

/-! ## Values under array layers -/

namespace Datum

@[simp] theorem conforms_any (v : Value) : v.conforms .any = true := by
  unfold conforms
  rfl

theorem conforms_array {v : Value} {item : Ty} :
    v.conforms (.array item) = true ↔
      ∃ items, v = .array items ∧ ∀ w ∈ items, w.conforms item = true := by
  cases v <;> simp [conforms, allConform_eq_all]

/-- Values of any type under layers are values of `any` under as many. -/
theorem conforms_layered_any {n : Nat} {t : Ty} {v : Value} (h : v.conforms (.layered n t) = true) :
    v.conforms (.layered n .any) = true := by
  induction n generalizing v with
  | zero => exact conforms_any v
  | succ n ih =>
    rw [Ty.layered, conforms_array] at h ⊢
    obtain ⟨items, rfl, hitems⟩ := h
    exact ⟨items, rfl, fun w hw => ih (hitems w hw)⟩

/-- A value as the only item of an array, which is the only item of an array, and so on `n` times. -/
def boxed : Nat → Value → Value
  | 0, v => v
  | n + 1, v => .array [boxed n v]

theorem conforms_boxed (n : Nat) (v : Value) (t : Ty) :
    (boxed n v).conforms (.layered n t) = v.conforms t := by
  induction n with
  | zero => rfl
  | succ n ih => simp [boxed, Ty.layered, conforms, allConform, ih]

end Datum

open Ty (layered)

/-- The check of types and the check of values agree: compatibility is reflexive and symmetric, and a
type takes all values of each type that it accepts, unless that is `any` under array layers.  Then and
only then is there a type that accepts it and does not take one of its values. -/
theorem checks_agree :
    (∀ t : Ty, t.accepts t = true) ∧
    (∀ t u : Ty, t.accepts u = true → u.accepts t = true) ∧
    ∀ t : Ty, (∀ n, t ≠ layered n .any) ↔
      ∀ u : Ty, u.accepts t = true → ∀ v : Value, v.conforms t = true → v.conforms u = true := by
  refine ⟨Ty.accepts_refl, fun t u => Ty.accepts_symm, fun t => ⟨?sound, ?exact⟩⟩
  case sound =>
    intro hspecific u hacc v hv
    rcases (Ty.accepts_iff u t).mp hacc with rfl | ⟨n, c, ⟨rfl, rfl⟩ | ⟨-, rfl⟩⟩
    · exact hv
    · exact Datum.conforms_layered_any hv
    · exact absurd rfl (hspecific n)
  case exact =>
    rintro hall n rfl
    have hacc : (layered n .int).accepts (layered n .any) = true :=
      (Ty.accepts_iff _ _).mpr (.inr ⟨n, .int, .inr ⟨rfl, rfl⟩⟩)
    have hv : (Datum.boxed n (.bool true)).conforms (layered n .any) = true := by
      rw [Datum.conforms_boxed]
      rfl
    have hint := hall (layered n .int) hacc (Datum.boxed n (.bool true)) hv
    rw [Datum.conforms_boxed] at hint
    cases hint

/-- Arrays of arrays of functions, against arrays of arrays of anything. -/
theorem checks_agree_functions :
    let t : Ty := layered 2 (.function [.int, .string] .bool)
    let u : Ty := layered 2 .any
    (u.accepts t = true ∧ ∀ v : Value, v.conforms t = true → v.conforms u = true) ∧
      t.accepts u = true ∧
      ¬ ∀ w : Ty, w.accepts u = true → ∀ v : Value, v.conforms u = true → v.conforms w = true := by
  intro t u
  have hacc : u.accepts t = true := by decide
  have hspecific : ∀ n, t ≠ layered n .any := by
    intro n
    rcases n with _ | _ | _ | n <;> simp [t, layered]
  refine ⟨⟨hacc, (checks_agree.2.2 t).mp hspecific u hacc⟩, checks_agree.2.1 u t hacc, fun hall => ?_⟩
  exact (checks_agree.2.2 u).mpr hall 2 rfl

end ClosureConversion
