import ClosureConversion.Proofs.Compatibility

/-!
The text of a type.

A function type is written without brackets around it or its result, so the text of an array of functions
is that of a function with an array as its result.  `Ty.norm` moves array layers inward, from function
types to their results, and keeps the text (`render_norm`).

This is the only ambiguity.  What stands behind a type within a text is nothing, a comma or a closing
bracket (`Ends`), and a text followed by such an end determines the type in normal form and the end:
`readable`.  A type is a leaf or a function type under array layers (`exists_layered`).  Behind a leaf
the layers can be counted; those around a function type are read with its result.
-/

namespace ClosureConversion

/-- Where two texts begin with a run of characters of one kind, and go on with none of it, the runs are
equal and so are the rests. -/
theorem Lists.append_inj_of_runs {α : Type} {p : α → Bool} {l l' x y : List α}
    (hl : ∀ c ∈ l, p c = true) (hl' : ∀ c ∈ l', p c = true) (hx : ∀ c ∈ x.head?, p c = false)
    (hy : ∀ c ∈ y.head?, p c = false) (h : l ++ x = l' ++ y) : l = l' ∧ x = y := by
  induction l generalizing l' with
  | nil =>
    cases l' with
    | nil => exact ⟨rfl, h⟩
    | cons c l' =>
      obtain rfl : x = c :: (l' ++ y) := h
      have := hl' c List.mem_cons_self
      rw [hx c rfl] at this
      cases this
  | cons c l ih =>
    cases l' with
    | nil =>
      obtain rfl : c :: (l ++ x) = y := h
      have := hl c List.mem_cons_self
      rw [hy c rfl] at this
      cases this
    | cons c' l' =>
      obtain ⟨rfl, htail⟩ := List.cons.inj h
      obtain ⟨rfl, rfl⟩ := ih (fun c hc => hl c (List.mem_cons_of_mem _ hc))
        (fun c hc => hl' c (List.mem_cons_of_mem _ hc)) htail
      exact ⟨rfl, rfl⟩

namespace Ty

/-! ## Normal form -/

/-- An array of `t`; if `t` is a function type, its result takes the layer. -/
def push : Ty → Ty
  | .function params result => .function params (push result)
  | t => .array t

mutual

/-- The type with its array layers moved inward, from function types to their results. -/
def norm : Ty → Ty
  | .array item => push (norm item)
  | .function params result => .function (normAll params) (norm result)
  | t => t

def normAll : List Ty → List Ty
  | [] => []
  | t :: ts => norm t :: normAll ts

end

theorem render_push (t : Ty) : (push t).render = t.render ++ "[]" := by
  fun_induction push t with
  | case1 params result ih => simp only [render, ih, String.append_assoc]
  | case2 t _ => rw [render]

mutual

theorem render_norm : ∀ t : Ty, (norm t).render = t.render
  | .array item => by rw [norm, render_push, render_norm item, render]
  | .function params result => by
    rw [norm, render, renderAll_normAll params, render_norm result, render]
  | .void | .bool | .int | .number | .string | .any | .carrier _ => rfl

theorem renderAll_normAll : ∀ ts : List Ty, renderAll (normAll ts) = renderAll ts
  | [] => rfl
  | [t] => render_norm t
  | t :: u :: ts => by
    have hrest : renderAll (norm u :: normAll ts) = renderAll (u :: ts) := renderAll_normAll (u :: ts)
    simp only [normAll, renderAll, render_norm t, hrest]

end

/-! ## Layers -/

/-- The type is written as one word. -/
def IsLeaf (t : Ty) : Prop := (∀ item, t ≠ .array item) ∧ ∀ params result, t ≠ .function params result

/-- A type is a leaf or a function type, under array layers. -/
theorem exists_layered : ∀ t : Ty,
    ∃ n core, t = layered n core ∧ (core.IsLeaf ∨ ∃ params result, core = .function params result)
  | .array item => by
    obtain ⟨n, core, rfl, hcore⟩ := exists_layered item
    exact ⟨n + 1, core, rfl, hcore⟩
  | .function params result => ⟨0, _, rfl, .inr ⟨params, result, rfl⟩⟩
  | .void | .bool | .int | .number | .string | .any | .carrier _ => ⟨0, _, rfl, .inl ⟨nofun, nofun⟩⟩

theorem sizeOf_layered (n : Nat) (t : Ty) : sizeOf (layered n t) = n + sizeOf t := by
  induction n with
  | zero => simp [layered]
  | succ n ih =>
    simp only [layered, array.sizeOf_spec, ih]
    omega

/-- The layers around a function type go to its result. -/
theorem norm_layered_function (n : Nat) (params : List Ty) (result : Ty) :
    norm (layered n (.function params result)) =
      .function (normAll params) (norm (layered n result)) := by
  induction n with
  | zero => simp [layered, norm]
  | succ n ih => simp [layered, norm, ih, push]

/-! ## Characters -/

def text (t : Ty) : List Char := t.render.toList

/-- The text of a parameter list. -/
def textAll (ts : List Ty) : List Char := (renderAll ts).toList

/-- The text of the parameters behind the first. -/
def textRest : List Ty → List Char
  | [] => []
  | t :: ts => ',' :: ' ' :: (text t ++ textRest ts)

/-- The text of array layers. -/
def brackets : Nat → List Char
  | 0 => []
  | n + 1 => '[' :: ']' :: brackets n

theorem brackets_append (n : Nat) : brackets n ++ ['[', ']'] = brackets (n + 1) := by
  induction n with
  | zero => rfl
  | succ n ih => rw [brackets, List.cons_append, List.cons_append, ih, ← brackets]

theorem text_layered (n : Nat) (t : Ty) : text (layered n t) = text t ++ brackets n := by
  induction n with
  | zero => simp [layered, brackets]
  | succ n ih =>
    have : text (layered (n + 1) t) = text (layered n t) ++ ['[', ']'] := by
      simp [text, layered, render]
    rw [this, ih, List.append_assoc, brackets_append]

theorem text_function (params : List Ty) (result : Ty) :
    text (.function params result) =
      '(' :: (textAll params ++ ')' :: ' ' :: '-' :: '>' :: ' ' :: text result) := by
  simp [text, textAll, render]

theorem textAll_cons (t : Ty) (ts : List Ty) : textAll (t :: ts) = text t ++ textRest ts := by
  induction ts generalizing t with
  | nil => simp [textAll, renderAll, text, textRest]
  | cons u ts ih =>
    rw [textRest, ← ih]
    simp [textAll, renderAll, text]

/-! ## Reading a text -/

/-- What may stand behind a type. -/
def Ends (x : List Char) : Prop := ∀ c ∈ x.head?, c = ',' ∨ c = ')'

theorem Ends.not_bracket {x : List Char} (hx : Ends x) :
    ∀ c ∈ x.head?, (c == '[' || c == ']') = false := by
  intro c hc
  rcases hx c hc with rfl | rfl <;> decide

/-- Behind a leaf come array layers and an end, so no digit. -/
theorem Ends.not_digit {x : List Char} (hx : Ends x) (n : Nat) :
    ∀ c ∈ (brackets n ++ x).head?, c.isDigit = false := by
  intro c hc
  cases n with
  | zero => rcases hx c hc with rfl | rfl <;> decide
  | succ n =>
    obtain rfl : '[' = c := by simpa [brackets] using hc
    decide

theorem brackets_inj {n m : Nat} {x y : List Char} (hx : Ends x) (hy : Ends y)
    (h : brackets n ++ x = brackets m ++ y) : n = m ∧ x = y := by
  have hall : ∀ k, ∀ c ∈ brackets k, (c == '[' || c == ']') = true := by
    intro k
    induction k with
    | zero => simp [brackets]
    | succ k ih => simpa [brackets] using ih
  have hlen : ∀ k, (brackets k).length = 2 * k := by
    intro k
    induction k with
    | zero => rfl
    | succ k ih =>
      simp only [brackets, List.length_cons, ih]
      omega
  obtain ⟨hrun, hrest⟩ := Lists.append_inj_of_runs (hall n) (hall m) hx.not_bracket hy.not_bracket h
  have := congrArg List.length hrun
  rw [hlen, hlen] at this
  exact ⟨by omega, hrest⟩

theorem digits_inj {m n : Nat} {x y : List Char} (hx : ∀ c ∈ x.head?, c.isDigit = false)
    (hy : ∀ c ∈ y.head?, c.isDigit = false)
    (h : Nat.toDigits 10 m ++ x = Nat.toDigits 10 n ++ y) : m = n ∧ x = y := by
  have hall : ∀ k, ∀ c ∈ Nat.toDigits 10 k, c.isDigit = true := fun k c hc =>
    Nat.isDigit_of_mem_toDigits (by decide) (by decide) hc
  obtain ⟨hrun, hrest⟩ := Lists.append_inj_of_runs (hall m) (hall n) hx hy h
  have := congrArg (Nat.ofDigitChars 10 · 0) hrun
  simp only [Nat.ofDigitChars_ten_toDigits] at this
  exact ⟨this, hrest⟩

/-- Leaves begin with different letters, or are carriers. -/
theorem leaf_inj {f g : Ty} (hf : f.IsLeaf) (hg : g.IsLeaf) {x y : List Char}
    (hx : ∀ c ∈ x.head?, c.isDigit = false) (hy : ∀ c ∈ y.head?, c.isDigit = false)
    (h : text f ++ x = text g ++ y) : f = g ∧ x = y := by
  cases f with
  | array item => exact absurd rfl (hf.1 item)
  | function params result => exact absurd rfl (hf.2 params result)
  | carrier m =>
    cases g with
    | array item => exact absurd rfl (hg.1 item)
    | function params result => exact absurd rfl (hg.2 params result)
    | carrier n =>
      have hdigits : Nat.toDigits 10 m ++ x = Nat.toDigits 10 n ++ y := by
        simpa [text, render] using h
      obtain ⟨rfl, rfl⟩ := digits_inj hx hy hdigits
      exact ⟨rfl, rfl⟩
    | _ => simp [text, render] at h
  | _ =>
    cases g with
    | array item => exact absurd rfl (hg.1 item)
    | function params result => exact absurd rfl (hg.2 params result)
    | _ => simp_all [text, render]

theorem head_leaf {f : Ty} (hf : f.IsLeaf) : ∃ c cs, text f = c :: cs ∧ c ≠ '(' ∧ c ≠ ')' := by
  cases f with
  | array item => exact absurd rfl (hf.1 item)
  | function params result => exact absurd rfl (hf.2 params result)
  | _ => simp [text, render]

/-- A type does not begin with the bracket that closes a parameter list. -/
theorem head_text (t : Ty) : ∃ c cs, text t = c :: cs ∧ c ≠ ')' := by
  obtain ⟨n, core, rfl, hcore⟩ := exists_layered t
  rw [text_layered]
  rcases hcore with hleaf | ⟨params, result, rfl⟩
  · obtain ⟨c, cs, hc, -, hne⟩ := head_leaf hleaf
    exact ⟨c, cs ++ brackets n, by rw [hc, List.cons_append], hne⟩
  · exact ⟨'(', _, by rw [text_function, List.cons_append], by decide⟩

/-- The type is known from its text, up to its normal form, whatever ends it. -/
def Readable (t : Ty) : Prop :=
  ∀ (u : Ty) (x y : List Char), Ends x → Ends y → text t ++ x = text u ++ y → norm t = norm u ∧ x = y

theorem ends_textRest (ts : List Ty) (x : List Char) : Ends (textRest ts ++ ')' :: x) := by
  intro c hc
  cases ts with
  | nil => exact .inr (by simpa [textRest] using hc.symm)
  | cons t ts => exact .inl (by simpa [textRest] using hc.symm)

theorem normAll_eq_of_rest {ts : List Ty} (hts : ∀ t ∈ ts, t.Readable) {us : List Ty}
    {x y : List Char} (h : textRest ts ++ ')' :: x = textRest us ++ ')' :: y) :
    normAll ts = normAll us ∧ x = y := by
  induction ts generalizing us with
  | nil =>
    cases us with
    | nil => simpa [textRest] using h
    | cons u us => simp [textRest] at h
  | cons t ts ih =>
    cases us with
    | nil => simp [textRest] at h
    | cons u us =>
      simp only [textRest, List.cons_append, List.append_assoc, List.cons.injEq, true_and] at h
      obtain ⟨ht, hrest⟩ := hts t List.mem_cons_self u _ _ (ends_textRest ts x) (ends_textRest us y) h
      obtain ⟨hts, hxy⟩ := ih (fun t ht => hts t (List.mem_cons_of_mem _ ht)) hrest
      exact ⟨by rw [normAll, normAll, ht, hts], hxy⟩

theorem normAll_eq_of_text {ts : List Ty} (hts : ∀ t ∈ ts, t.Readable) {us : List Ty}
    {x y : List Char} (h : textAll ts ++ ')' :: x = textAll us ++ ')' :: y) :
    normAll ts = normAll us ∧ x = y := by
  cases ts with
  | nil =>
    cases us with
    | nil => exact ⟨rfl, by simpa [textAll, renderAll] using h⟩
    | cons u us =>
      obtain ⟨c, cs, hc, hne⟩ := head_text u
      rw [textAll_cons, hc] at h
      exact absurd (List.cons.inj h).1.symm hne
  | cons t ts =>
    cases us with
    | nil =>
      obtain ⟨c, cs, hc, hne⟩ := head_text t
      rw [textAll_cons, hc] at h
      exact absurd (List.cons.inj h).1 hne
    | cons u us =>
      refine normAll_eq_of_rest hts ?_
      rw [textAll_cons, textAll_cons] at h
      simpa [textRest] using h

/-- Every type is.  The parameters are smaller than the type, and so is the result with the layers. -/
theorem readable (t : Ty) : t.Readable := by
  intro u x y hx hy h
  obtain ⟨n, f, ht, hf⟩ := exists_layered t
  obtain ⟨m, g, rfl, hg⟩ := exists_layered u
  rw [ht, text_layered, text_layered, List.append_assoc, List.append_assoc] at h
  rcases hf with hf | ⟨params, result, rfl⟩
  · rcases hg with hg | ⟨params', result', rfl⟩
    · obtain ⟨rfl, hlayers⟩ := leaf_inj hf hg (hx.not_digit n) (hy.not_digit m) h
      obtain ⟨rfl, rfl⟩ := brackets_inj hx hy hlayers
      exact ⟨by rw [ht], rfl⟩
    · obtain ⟨c, cs, hc, hne, -⟩ := head_leaf hf
      rw [hc, text_function] at h
      exact absurd (List.cons.inj h).1 hne
  · rcases hg with hg | ⟨params', result', rfl⟩
    · obtain ⟨c, cs, hc, hne, -⟩ := head_leaf hg
      rw [hc, text_function] at h
      exact absurd (List.cons.inj h).1.symm hne
    · -- the layers of both sides stand behind the results, so they are read with them
      have hsize : sizeOf t = n + (1 + sizeOf params + sizeOf result) := by
        rw [ht, sizeOf_layered, function.sizeOf_spec]
      have hparams : ∀ p ∈ params, p.Readable := by
        intro p hp
        have := List.sizeOf_lt_of_mem hp
        exact readable p
      simp only [text_function, List.cons_append, List.append_assoc, List.cons.injEq, true_and] at h
      obtain ⟨hps, hrest⟩ := normAll_eq_of_text hparams h
      simp only [List.cons.injEq, true_and] at hrest
      rw [← List.append_assoc, ← List.append_assoc, ← text_layered, ← text_layered] at hrest
      obtain ⟨hres, hxy⟩ := readable (layered n result) (layered m result') x y hx hy hrest
      exact ⟨by rw [ht, norm_layered_function, norm_layered_function, hps, hres], hxy⟩
termination_by sizeOf t
decreasing_by
  · omega
  · rw [sizeOf_layered]
    omega

/-- Types have the same text iff they differ only in which array layers stand around function types and
which around their results. -/
theorem render_eq_iff_norm_eq (a b : Ty) : a.render = b.render ↔ a.norm = b.norm := by
  constructor
  · intro h
    refine (readable a b [] [] nofun nofun ?_).1
    rw [text, text, h]
  · intro h
    rw [← render_norm a, ← render_norm b, h]

example : (Ty.array (.function [.int] .bool)).render = "(int) -> bool[]" := by decide +kernel

example : norm (.array (.function [.int] (.array .bool))) =
    .function [.int] (.array (.array .bool)) := by decide +kernel

end Ty

end ClosureConversion
