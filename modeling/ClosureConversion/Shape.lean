import ClosureConversion.Ty

/-!
Carrier shapes: the record types that closures use.

A shape is a list of field types together with its number.  `ShapeTable` numbers the shapes in the
order in which they are first asked for, from 1 on; it only grows, so a shape once handed out stays
valid, and asking again for the same fields gives the same number.
-/

namespace ClosureConversion

structure Shape where
  id : Nat
  fields : List Ty
deriving DecidableEq, Inhabited

namespace Shape

/-- Number of fields, a link to the next carrier of a chain included. -/
def arity (s : Shape) : Nat := s.fields.length

def field? (s : Shape) (slot : Nat) : Option Ty := s.fields[slot]?

/-- The type of the carriers of this shape. -/
def ty (s : Shape) : Ty := .carrier s.id

end Shape

/-- The field lists that have a number, in the order of their numbers. -/
structure ShapeTable where
  rows : List (List Ty) := []
deriving Inhabited

namespace ShapeTable

/-- The shape with these fields, numbered now if it is new. -/
def intern (fields : List Ty) : StateM ShapeTable Shape := fun t =>
  match t.rows.idxOf? fields with
  | some i => (⟨i + 1, fields⟩, t)
  | none => (⟨t.rows.length + 1, fields⟩, ⟨t.rows ++ [fields]⟩)

/-- The table knows `s` under its number. -/
def Knows (t : ShapeTable) (s : Shape) : Prop := 0 < s.id ∧ t.rows[s.id - 1]? = some s.fields

theorem knows_intern (fields : List Ty) (t : ShapeTable) :
    (intern fields t).2.Knows (intern fields t).1 := by
  unfold intern Knows
  cases h : t.rows.idxOf? fields with
  | none => simp
  | some i =>
    obtain ⟨hi, hx, -⟩ := List.idxOf?_eq_some_iff.mp h
    simp [List.getElem?_eq_getElem hi, hx]

@[simp] theorem fields_intern (fields : List Ty) (t : ShapeTable) :
    (intern fields t).1.fields = fields := by
  unfold intern
  cases t.rows.idxOf? fields <;> rfl

/-- The table only grows at its end. -/
theorem rows_intern (fields : List Ty) (t : ShapeTable) : t.rows <+: (intern fields t).2.rows := by
  unfold intern
  cases t.rows.idxOf? fields
  · exact List.prefix_append _ _
  · exact List.prefix_rfl

end ShapeTable

end ClosureConversion
