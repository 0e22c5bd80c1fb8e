import ClosureConversion.Plan

/-!
Computations that can fail and have a state: `ExceptT ε (StateM σ)`.

Such a computation is a function from a state to an outcome and a state.  `bind_ok`, `bind_error` and
`bind_cases` say what a sequence of two does; `filterMapM_rel` says what a loop does to the state,
given what one turn does to it.
-/

namespace ClosureConversion

namespace Outcome

variable {ε σ α β : Type} {x : ExceptT ε (StateM σ) α} {f : α → ExceptT ε (StateM σ) β} {s s' : σ}

theorem bind_ok {a : α} (h : x s = (.ok a, s')) : (x >>= f) s = f a s' := by
  simp only [bind, ExceptT.bind, ExceptT.mk, StateT.bind]
  rw [h]
  rfl

theorem bind_error {e : ε} (h : x s = (.error e, s')) : (x >>= f) s = (.error e, s') := by
  simp only [bind, ExceptT.bind, ExceptT.mk, StateT.bind]
  rw [h]
  rfl

theorem bind_cases {r : Except ε β} {s'' : σ} (h : (x >>= f) s = (r, s'')) :
    (∃ a s', x s = (.ok a, s') ∧ f a s' = (r, s'')) ∨ ∃ e, x s = (.error e, s'') ∧ r = .error e := by
  cases hx : x s with
  | mk q s' =>
    cases q with
    | ok a => exact .inl ⟨a, s', rfl, (bind_ok hx).symm.trans h⟩
    | error e =>
      obtain ⟨rfl, rfl⟩ := Prod.mk.inj ((bind_error hx).symm.trans h)
      exact .inr ⟨e, rfl, rfl⟩

/-- Sequences are the same if their parts are, where they run. -/
theorem bind_congr {y : ExceptT ε (StateM σ) α} {g : α → ExceptT ε (StateM σ) β} (hx : x s = y s)
    (hf : ∀ a s', y s = (.ok a, s') → f a s' = g a s') : (x >>= f) s = (y >>= g) s := by
  cases hy : y s with
  | mk q s' =>
    cases q with
    | ok a => rw [bind_ok (hx.trans hy), bind_ok hy, hf a s' hy]
    | error e => rw [bind_error (hx.trans hy), bind_error hy]

theorem map_eq (g : α → β) (x : ExceptT ε (StateM σ) α) (s : σ) :
    (g <$> x) s = ((x s).1.map g, (x s).2) := by
  simp only [Functor.map, ExceptT.map, ExceptT.mk, bind, StateT.bind]
  cases x s with
  | mk q s' => cases q <;> rfl

theorem adapt_eq {ε' : Type} (g : ε → ε') (x : ExceptT ε (StateM σ) α) (s : σ) :
    ExceptT.adapt g x s = ((x s).1.mapError g, (x s).2) := rfl

/-- A sequence of two succeeds iff both do. -/
theorem bind_eq_ok {b : β} {s'' : σ} :
    (x >>= f) s = (.ok b, s'') ↔ ∃ a s', x s = (.ok a, s') ∧ f a s' = (.ok b, s'') := by
  constructor
  · intro h
    rcases bind_cases h with h | ⟨e, -, he⟩
    · exact h
    · cases he
  · rintro ⟨a, s', hx, hf⟩
    exact (bind_ok hx).trans hf

section

variable {R : σ → σ → Prop} (refl : ∀ s, R s s) (trans : ∀ s₁ s₂ s₃, R s₁ s₂ → R s₂ s₃ → R s₁ s₃)

include trans

/-- What the parts of a sequence do to the state, the sequence does too. -/
theorem bind_rel (hx : R s (x s).2) (hf : ∀ a s', R s' (f a s').2) : R s ((x >>= f) s).2 := by
  cases h : x s with
  | mk q s' =>
    rw [h] at hx
    cases q with
    | error e =>
      rw [bind_error h]
      exact hx
    | ok a =>
      rw [bind_ok h]
      exact trans _ _ _ hx (hf a s')

include refl

/-- What a turn of a loop does to the state, the loop does too. -/
theorem filterMapM_rel {g : α → ExceptT ε (StateM σ) (Option β)} {as : List α}
    (turn : ∀ a ∈ as, ∀ s, R s (g a s).2) (s : σ) : R s (as.filterMapM g s).2 := by
  induction as generalizing s with
  | nil => exact refl s
  | cons a as ih =>
    rw [List.forall_mem_cons] at turn
    rw [List.filterMapM_cons]
    refine bind_rel trans (turn.1 s) fun o s' => ?_
    cases o with
    | none => exact ih turn.2 s'
    | some b => exact bind_rel trans (ih turn.2 s') fun bs s'' => refl s''

end

theorem filterMapM_congr {f g : α → ExceptT ε (StateM σ) (Option β)} {as : List α}
    (h : ∀ a ∈ as, f a = g a) : as.filterMapM f = as.filterMapM g := by
  induction as with
  | nil => rfl
  | cons a as ih =>
    rw [List.forall_mem_cons] at h
    rw [List.filterMapM_cons, List.filterMapM_cons, h.1, ih h.2]

end Outcome

end ClosureConversion
