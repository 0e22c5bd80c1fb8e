import ClosureConversion.Eval
import ClosureConversion.Proofs.Outcome
import Mathlib.Data.Int.ModEq

/-!
Arithmetic on integers.

An integer is a word of 64 bits.  For every integer without bound there is one word that is congruent
to it modulo `2 ^ 64` (`eq_ofInt_iff`), and an operator gives the word of the exact result; only
division by zero has none (`BinaryOp.onInts_eq`).

The exact remainder of two words is a word, and so is the exact quotient, except for that of the least
word and `-1` (`isQuotient`).  Since every operator computes modulo `2 ^ 64`, quotient and remainder
give back the dividend without an exception (`mul_add_modEq`).
-/

namespace ClosureConversion

/-! ## Words -/

/-- The word of an integer is the only one that is congruent to it. -/
theorem eq_ofInt_iff {n : Int64} {x : Int} : n = .ofInt x ↔ n.toInt ≡ x [ZMOD 2 ^ 64] := by
  constructor
  · rintro rfl
    rw [Int64.toInt_ofInt]
    exact Int.bmod_emod
  · intro h
    rw [← Int64.toInt_inj, Int64.toInt_ofInt, ← Int64.toInt_bmod_size, ← Int.emod_bmod]
    exact (congrArg (Int.bmod · Int64.size) h).trans (Int.emod_bmod x Int64.size)

theorem toInt_ofInt_modEq (x : Int) : (Int64.ofInt x).toInt ≡ x [ZMOD 2 ^ 64] :=
  eq_ofInt_iff.mp rfl

theorem div_eq_ofInt (a b : Int64) : a / b = .ofInt (a.toInt.tdiv b.toInt) := by
  rw [← Int64.toInt_inj, Int64.toInt_div, Int64.toInt_ofInt]

theorem mod_eq_ofInt (a b : Int64) : a % b = .ofInt (a.toInt.tmod b.toInt) := by
  rw [← Int64.toInt_mod, Int64.ofInt_toInt]

namespace BinaryOp

/-- The operator on integers without bound; division cuts off toward zero. -/
def exact : BinaryOp → Int → Int → Int
  | .add, x, y => x + y
  | .sub, x, y => x - y
  | .mul, x, y => x * y
  | .div, x, y => x.tdiv y
  | .mod, x, y => x.tmod y

/-- It has no result for the divisor zero. -/
def divides : BinaryOp → Bool
  | .div | .mod => true
  | _ => false

/-- An operator gives the word of the exact result. -/
theorem onInts_eq (op : BinaryOp) (a b : Int64) :
    op.onInts a b =
      if op.divides = true ∧ b = 0 then .error .divisionByZero
      else .ok (.ofInt (op.exact a.toInt b.toInt)) := by
  cases op with
  | add => simp [onInts, divides, exact, Int64.ofInt_add]
  | sub => simp [onInts, divides, exact, Int64.ofInt_sub]
  | mul => simp [onInts, divides, exact, Int64.ofInt_mul]
  | div => simp [onInts, divides, exact, div_eq_ofInt]
  | mod => simp [onInts, divides, exact, mod_eq_ofInt]

end BinaryOp

/-! ## Quotient and remainder -/

/-- A remainder smaller than the divisor and of the sign of the dividend, and the quotient without its
fraction; the quotient of the least word and `-1` is not a word, and wraps to the least one. -/
structure IsQuotient (a b q r : Int64) : Prop where
  small : r.toInt.natAbs < b.toInt.natAbs
  sign : r = 0 ∨ r.toInt.sign = a.toInt.sign
  quotient : ¬ (a = .minValue ∧ b = -1) → q.toInt = a.toInt.tdiv b.toInt
  least : a = .minValue ∧ b = -1 → q = .minValue ∧ r = 0

theorem isQuotient {a b : Int64} (hb : b ≠ 0) : IsQuotient a b (a / b) (a % b) where
  small := by
    have hpos : 0 < b.toInt.natAbs := Int.natAbs_pos.mpr fun h => hb (Int64.toInt_inj.mp h)
    rw [Int64.toInt_mod, Int.natAbs_tmod]
    exact Nat.mod_lt _ hpos
  sign := by
    rw [← Int64.toInt_inj, Int64.toInt_mod, Int.sign_tmod]
    split
    · next h => exact .inl (Int.tmod_eq_zero_of_dvd h)
    · exact .inr rfl
  quotient h := by
    by_cases ha : a = .minValue
    · exact Int64.toInt_div_of_ne_right a b fun hb => h ⟨ha, hb⟩
    · exact Int64.toInt_div_of_ne_left a b ha
  least := by
    rintro ⟨rfl, rfl⟩
    exact ⟨Int64.minValue_div_neg_one, by decide⟩

/-- The dividend comes back modulo `2 ^ 64`, whether or not the exact quotient is a word. -/
theorem mul_add_modEq (a b : Int64) :
    (a / b).toInt * b.toInt + (a % b).toInt ≡ a.toInt [ZMOD 2 ^ 64] := by
  -- of the quotient only the congruence is known, which is enough
  have hq : (a / b).toInt ≡ a.toInt.tdiv b.toInt [ZMOD 2 ^ 64] :=
    eq_ofInt_iff.mp (div_eq_ofInt a b)
  calc (a / b).toInt * b.toInt + (a % b).toInt
      ≡ a.toInt.tdiv b.toInt * b.toInt + a.toInt.tmod b.toInt [ZMOD 2 ^ 64] := by
        rw [Int64.toInt_mod]
        exact (hq.mul_right _).add_right _
    _ = a.toInt := by rw [Int.mul_comm, Int.mul_tdiv_add_tmod]

/-! ## Evaluation -/

section

variable {call : Closure → List Value → EvalM Value} {ctx : Context} {left right : Expr}
  {a b : Int64} {σ σ₁ σ₂ : Store}

theorem eval_neg (hl : left.eval call ctx σ = (.ok (.int a), σ₁)) :
    (Term.unary .neg left).eval call ctx σ = (.ok (.int (.ofInt (-a.toInt))), σ₁) := by
  unfold Term.eval
  rw [Outcome.bind_ok hl, Int64.ofInt_neg, Int64.ofInt_toInt]
  rfl

variable (hl : left.eval call ctx σ = (.ok (.int a), σ₁))
  (hr : right.eval call ctx σ₁ = (.ok (.int b), σ₂))

include hl hr

theorem eval_binary (op : BinaryOp) :
    (Term.binary op left right).eval call ctx σ =
      EvalM.ofExcept (Datum.int <$> op.onInts a b) σ₂ := by
  unfold Term.eval
  rw [Outcome.bind_ok hl, Outcome.bind_ok hr]
  rfl

theorem eval_binary_ok (op : BinaryOp) (h : op.divides = true → b ≠ 0) :
    (Term.binary op left right).eval call ctx σ =
      (.ok (.int (.ofInt (op.exact a.toInt b.toInt))), σ₂) := by
  rw [eval_binary hl hr, BinaryOp.onInts_eq, if_neg (not_and.mpr h)]
  rfl

theorem eval_binary_error {op : BinaryOp} (h : op.divides = true) (hb : b = 0) :
    (Term.binary op left right).eval call ctx σ = (.error (.fault .divisionByZero), σ₂) := by
  rw [eval_binary hl hr, BinaryOp.onInts_eq, if_pos ⟨h, hb⟩]
  rfl

/-- A product and a sum that wrap one after the other are as good as one that wraps in the end. -/
theorem eval_mul_add {last : Expr} {c : Int64} {σ₃ : Store}
    (hc : last.eval call ctx σ₂ = (.ok (.int c), σ₃)) :
    (Term.binary .add (.binary .mul left right) last).eval call ctx σ =
      (.ok (.int (.ofInt (a.toInt * b.toInt + c.toInt))), σ₃) := by
  have hmul := eval_binary_ok hl hr .mul nofun
  rw [eval_binary_ok hmul hc .add nofun, BinaryOp.exact, BinaryOp.exact, Int64.ofInt_add,
    Int64.ofInt_toInt, ← Int64.ofInt_add]

end

/-- Arithmetic on integers is that modulo `2 ^ 64`: for every two expressions with the integers `a` and
`b` as their values, sum, difference, product and negation have the word that is congruent to the exact
result, and division fails exactly if `b` is zero.  Else quotient and remainder are those of `IsQuotient`,
and expressions with their values give back `a` under the product and the sum of the language. -/
theorem arithmetic_wraps {call : Closure → List Value → EvalM Value} {ctx : Context}
    {left right : Expr} {a b : Int64} {σ σ₁ σ₂ : Store}
    (hl : left.eval call ctx σ = (.ok (.int a), σ₁))
    (hr : right.eval call ctx σ₁ = (.ok (.int b), σ₂)) :
    (∃ n : Int64, (Term.binary .add left right).eval call ctx σ = (.ok (.int n), σ₂) ∧
      n.toInt ≡ a.toInt + b.toInt [ZMOD 2 ^ 64]) ∧
    (∃ n : Int64, (Term.binary .sub left right).eval call ctx σ = (.ok (.int n), σ₂) ∧
      n.toInt ≡ a.toInt - b.toInt [ZMOD 2 ^ 64]) ∧
    (∃ n : Int64, (Term.binary .mul left right).eval call ctx σ = (.ok (.int n), σ₂) ∧
      n.toInt ≡ a.toInt * b.toInt [ZMOD 2 ^ 64]) ∧
    (∃ n : Int64, (Term.unary .neg left).eval call ctx σ = (.ok (.int n), σ₁) ∧
      n.toInt ≡ -a.toInt [ZMOD 2 ^ 64]) ∧
    (∀ op : BinaryOp, op = .div ∨ op = .mod →
      ((Term.binary op left right).eval call ctx σ = (.error (.fault .divisionByZero), σ₂) ↔
        b = 0)) ∧
    (b ≠ 0 → ∃ q r : Int64,
      (Term.binary .div left right).eval call ctx σ = (.ok (.int q), σ₂) ∧
      (Term.binary .mod left right).eval call ctx σ = (.ok (.int r), σ₂) ∧
      IsQuotient a b q r ∧
      ∀ (x y z : Expr) (τ τ₁ τ₂ τ₃ : Store), x.eval call ctx τ = (.ok (.int q), τ₁) →
        y.eval call ctx τ₁ = (.ok (.int b), τ₂) → z.eval call ctx τ₂ = (.ok (.int r), τ₃) →
        (Term.binary .add (.binary .mul x y) z).eval call ctx τ = (.ok (.int a), τ₃)) := by
  refine ⟨⟨_, eval_binary_ok hl hr .add nofun, toInt_ofInt_modEq _⟩,
    ⟨_, eval_binary_ok hl hr .sub nofun, toInt_ofInt_modEq _⟩,
    ⟨_, eval_binary_ok hl hr .mul nofun, toInt_ofInt_modEq _⟩,
    ⟨_, eval_neg hl, toInt_ofInt_modEq _⟩, fun op hop => ?fails, fun hb => ?divides⟩
  case fails =>
    have hdiv : op.divides = true := by rcases hop with rfl | rfl <;> rfl
    refine ⟨fun h => ?_, eval_binary_error hl hr hdiv⟩
    by_contra hb
    cases (eval_binary_ok hl hr op fun _ => hb).symm.trans h
  case divides =>
    have hq := eval_binary_ok hl hr .div fun _ => hb
    have hm := eval_binary_ok hl hr .mod fun _ => hb
    rw [BinaryOp.exact, ← div_eq_ofInt] at hq
    rw [BinaryOp.exact, ← mod_eq_ofInt] at hm
    refine ⟨a / b, a % b, hq, hm, isQuotient hb, fun x y z τ τ₁ τ₂ τ₃ hx hy hz => ?_⟩
    rw [eval_mul_add hx hy hz, ← eq_ofInt_iff.mpr (mul_add_modEq a b).symm]

/-- The least integer, from a function that is compiled on the way, and `-1`. -/
theorem arithmetic_wraps_least :
    let left : Expr := .call (.lambda 0 [] (.int .minValue)) []
    let right : Expr := .unary .neg (.int 1)
    ∃ σ : Store, left.eval (Closure.invoke 1) {} {} = (.ok (.int .minValue), σ) ∧
      right.eval (Closure.invoke 1) {} σ = (.ok (.int (-1)), σ) ∧
      (Term.binary .div left right).eval (Closure.invoke 1) {} {} = (.ok (.int .minValue), σ) ∧
      (Term.binary .mod left right).eval (Closure.invoke 1) {} {} = (.ok (.int 0), σ) ∧
      ∀ τ, (Term.binary .add (.binary .mul (.int .minValue) right) (.int 0)).eval
        (Closure.invoke 1) {} τ = (.ok (.int .minValue), τ) := by
  intro left right
  have hl : left.eval (Closure.invoke 1) {} {} = (.ok (.int .minValue), _) := rfl
  have hr : ∀ τ, right.eval (Closure.invoke 1) {} τ = (.ok (.int (-1)), τ) := fun _ => rfl
  obtain ⟨-, -, -, -, -, hdiv⟩ := arithmetic_wraps hl (hr _)
  obtain ⟨q, r, hq, hm, hquot, hback⟩ := hdiv (by decide)
  obtain ⟨rfl, rfl⟩ := hquot.least ⟨rfl, rfl⟩
  exact ⟨_, hl, hr _, hq, hm, fun τ => hback _ _ _ τ τ τ τ rfl (hr τ) rfl⟩

end ClosureConversion
