import ClosureConversion.ConversionError
import ClosureConversion.Store

/-!
Layouts: how the values of an environment are stored in carriers.

A carrier has at most eight fields.  A longer environment is stored in a chain: every carrier but the
last holds seven values and links to the next one in its last field, and the last holds up to eight.
`segmentLengths` fills one carrier after another, which comes to a division (`segmentLengths_eq_cut`).
`Layout.construct` writes the expression that builds the chain from one expression for each value;
`Layout.access i` writes the expression that reads value `i` back out of the first carrier.
-/

namespace ClosureConversion

namespace Layout

/-- Most fields of a carrier. -/
def maxFields : Nat := 8

/-- The field that links to the next carrier. -/
def tailSlot : Nat := maxFields - 1

end Layout

/-- How many values each carrier of a chain holds, the first carrier first. -/
def segmentLengths (count : Nat) : List Nat :=
  if count = 0 then []
  else if count ≤ Layout.maxFields then [count]
  else Layout.tailSlot :: segmentLengths (count - Layout.tailSlot)
termination_by count
decreasing_by simp only [Layout.tailSlot, Layout.maxFields] at *; omega

section

open Layout (maxFields tailSlot)

theorem segmentLengths_of_le {n : Nat} (hpos : 1 ≤ n) (hle : n ≤ maxFields) :
    segmentLengths n = [n] := by
  rw [segmentLengths, if_neg (by omega), if_pos hle]

theorem segmentLengths_of_lt {n : Nat} (hlt : maxFields < n) :
    segmentLengths n = tailSlot :: segmentLengths (n - tailSlot) := by
  rw [segmentLengths, if_neg (by omega), if_neg (by omega)]

/-- All carriers but the last are full, and the last holds what is left. -/
theorem segmentLengths_eq {n : Nat} (hpos : 1 ≤ n) :
    ∃ q r, segmentLengths n = List.replicate q tailSlot ++ [r] ∧ q * tailSlot + r = n ∧
      1 ≤ r ∧ r ≤ maxFields ∧ (r = 1 → q = 0) := by
  by_cases hle : n ≤ maxFields
  · exact ⟨0, n, segmentLengths_of_le hpos hle, by omega, hpos, hle, fun _ => rfl⟩
  · have hlt : maxFields < n := Nat.lt_of_not_le hle
    have hslot : tailSlot + 1 = maxFields := rfl
    have hfields : maxFields = 8 := rfl
    obtain ⟨q, r, he, hsum, h1, h8, hone⟩ := segmentLengths_eq (n := n - tailSlot) (by omega)
    refine ⟨q + 1, r, ?_, ?_, h1, h8, fun hr => ?_⟩
    · rw [segmentLengths_of_lt hlt, he, List.replicate_succ, List.cons_append]
    · rw [Nat.succ_mul]
      omega
    · -- nine values or more leave at least two behind the first carrier
      rw [hone hr] at hsum
      omega
termination_by n

/-- The number of carriers in a chain of `count` values, and of values in the last, by division.  A single
value that is left over goes to the carrier before, which then has no link. -/
def Layout.cut (count : Nat) : Nat × Nat :=
  let carriers := count / tailSlot + 1
  let left := count % tailSlot
  if left = 0 then (carriers - 1, tailSlot)
  else if left = 1 ∧ 1 < carriers then (carriers - 1, maxFields)
  else (carriers, left)

/-- Division finds the last carrier. -/
theorem Layout.cut_eq {n q r : Nat} (hsum : q * tailSlot + r = n) (h1 : 1 ≤ r) (h8 : r ≤ maxFields)
    (hone : r = 1 → q = 0) : cut n = (q + 1, r) := by
  have hslot : tailSlot = 7 := rfl
  have hfields : maxFields = 8 := rfl
  simp only [cut, hslot, hfields] at hsum h8 ⊢
  split
  · rw [Prod.mk.injEq]
    omega
  · split <;> (rw [Prod.mk.injEq]; omega)

/-- Filling one carrier after another cuts as division does. -/
theorem segmentLengths_eq_cut (n : Nat) :
    segmentLengths n =
      if n = 0 then [] else List.replicate ((Layout.cut n).1 - 1) tailSlot ++ [(Layout.cut n).2] := by
  split
  case isTrue h => rw [h, segmentLengths, if_pos rfl]
  case isFalse h =>
    obtain ⟨q, r, he, hsum, h1, h8, hone⟩ := segmentLengths_eq (Nat.pos_of_ne_zero h)
    rw [he, Layout.cut_eq hsum h1 h8 hone]
    rfl

end

/-- A carrier of a chain. -/
structure Segment where
  /-- Position in the environment of its first value. -/
  start : Nat
  /-- Number of its values. -/
  len : Nat
  shape : Shape
deriving DecidableEq, Inhabited

namespace Segment

/-- It has a field beyond its values. -/
def hasTail (s : Segment) : Bool := s.len < s.shape.arity

def contains (s : Segment) (index : Nat) : Bool := s.start ≤ index && index < s.start + s.len

end Segment

structure Layout where
  head : Segment
  rest : List Segment
deriving DecidableEq, Inhabited

namespace Layout

def segments (l : Layout) : List Segment := l.head :: l.rest

/-- Number of values. -/
def len (l : Layout) : Nat := l.segments.foldr (fun s n => s.len + n) 0

/-- Type of the carrier that a closure receives. -/
def headTy (l : Layout) : Ty := l.head.shape.ty

/-- The segments of these lengths for values of these types, the first at position `start`.  A link
needs the shape it leads to, so the last shape is made first. -/
def link (start : Nat) : List Nat → List Ty → StateM Store (List Segment)
  | [], _ => pure []
  | len :: lens, types => do
    let rest ← link (start + len) lens (types.drop len)
    let tail := (rest.head?.map (·.shape.ty)).toList
    let shape ← Store.shape (types.take len ++ tail)
    return ⟨start, len, shape⟩ :: rest

/-- The layout of an environment with these field types. -/
def ofTypes (types : List Ty) : ExceptT Breach (StateM Store) Layout := do
  match ← link 0 (segmentLengths types.length) types with
  | [] => throw .emptyCarrier
  | head :: rest => return ⟨head, rest⟩

/-! ## Building a chain -/

def chain (values : List Expr) (s : Segment) : List Segment → Expr
  | [] => .newCarrier s.shape (values.take s.len)
  | t :: ts => .newCarrier s.shape (values.take s.len ++ [chain (values.drop s.len) t ts])

/-- The carrier chain that holds `values`. -/
def construct (l : Layout) (values : List Expr) : Except Breach Expr :=
  if values.length = l.len then .ok (chain values l.head l.rest)
  else .error (.carrierValueCount l.len values.length)

/-! ## Reading a chain -/

def readField (carrier : Expr) (shape : Shape) (slot : Nat) : Except Breach Expr :=
  if slot < shape.arity then .ok (.field carrier shape slot)
  else .error (.missingCarrierField slot shape.arity)

/-- Reads value `index` from `carrier`, the first of the segments given. -/
def follow (index : Nat) (carrier : Expr) : List Segment → Except Breach Expr
  | [] => .error (.slotOutOfRange index 0)
  | s :: ss =>
    if s.contains index then readField carrier s.shape (index - s.start)
    else do follow index (← readField carrier s.shape tailSlot) ss

/-- Reads value `index` from the chain that starts at `carrier`. -/
def access (l : Layout) (index : Nat) (carrier : Expr) : Except Breach Expr :=
  if index < l.len then follow index carrier l.segments
  else .error (.slotOutOfRange index l.len)

end Layout

end ClosureConversion
