import ClosureConversion.Proofs.WellFormed

/-!
Sessions whose counters are 32-bit words.

A command raises each counter by at most one, and only if the session then has a scope, or a parameter,
with the id that was taken (`Effect.scope_cases`, `Effect.local_cases`).  So a counter that has wrapped
leaves an id behind that is not below it.  `wellFormed_iff_fits`: the structural invariant holds after
every command of a run iff both counters, counted without bound, stay below `Word.size`; until then
the session is the one with unbounded counters.  A run of fewer commands than that cannot wrap them,
since ids are bounded by the number of commands (`ids_follow`).

Scopes need not be kept for the counter to wrap.  `lostScopes` opens one scope after another, each closed
with a body that is rejected, and the scope after the last word has the id of the root
(`exhaustion_wraps`).
-/

namespace ClosureConversion.Session

/-- The session after commands, each of which comes with the store that it meets. -/
def follow (s : Session) (steps : List (Command × Store)) : Session :=
  steps.foldl (fun s step => (s.exec step.1 step.2).1.2) s

/-- The session with counters that are words, after the same. -/
def followWord (s : Session) (steps : List (Command × Store)) : Session :=
  steps.foldl (fun s step => (s.execWord step.1 step.2).1.2) s

/-- Both counters are words. -/
def Fits (s : Session) : Prop := s.freshScope < Word.size ∧ s.freshLocal < Word.size

variable {s s' : Session} {d : Draft} {outer : List Draft} {u : BodyUse} {sc : Scope}

/-! ## Ids that are taken -/

theorem mem_locals_of_open (hd : d ∈ s.stack) {p : Param} (hp : p ∈ d.params) : p.id ∈ s.locals := by
  refine List.mem_flatMap.mpr ⟨(d.id, d.params.map Param.id), ?_, List.mem_map_of_mem hp⟩
  exact List.mem_append_left _ (List.mem_map_of_mem hd)

theorem mem_locals_of_closed {id : ScopeId} (h : s.closed.get? id = some sc) {p : Param}
    (hp : p ∈ sc.signature) : p.id ∈ s.locals := by
  refine List.mem_flatMap.mpr ⟨(id, sc.signature.map Param.id), ?_, List.mem_map_of_mem hp⟩
  refine List.mem_append_right _ (List.mem_map.mpr ⟨(id, sc), ?_, rfl⟩)
  exact Std.TreeMap.mem_toList_iff_getElem?_eq_some.mpr h

theorem locals_attach (s : Session) (id : ScopeId) : (s.attach id).locals = s.locals := by
  cases hs : s.stack with
  | nil => rw [attach_of_nil hs]; rfl
  | cons d outer => rw [attach_of_cons hs, locals, locals, scopes, scopes, hs]; rfl

theorem Records.local_cases (r : s.Records d outer u sc s') :
    s'.freshLocal = s.freshLocal ∨
      s'.freshLocal = s.freshLocal + 1 ∧ s.freshLocal ∈ s'.locals := by
  have hcarries := r.carries
  cases hc : sc.carried with
  | none =>
    rw [hc] at hcarries
    exact .inl hcarries.2
  | some c =>
    rw [hc] at hcarries
    obtain ⟨-, -, hid, hnext, -⟩ := hcarries
    have hparam : c.param ∈ sc.signature := by simp [Scope.signature, hc]
    exact .inr ⟨hnext, hid ▸ mem_locals_of_closed r.get?_self hparam⟩

theorem Effect.scope_cases (e : s.Effect s') :
    s'.freshScope = s.freshScope ∨
      s'.freshScope = s.freshScope + 1 ∧ ∃ d ∈ s'.stack, d.id = s.freshScope := by
  cases e with
  | enter span => exact .inr ⟨rfl, _, List.mem_cons_self, rfl⟩
  | abandon r => exact .inl r.freshScope
  | attach r => exact .inl ((freshScope_attach _ _).trans r.freshScope)
  | _ => exact .inl rfl

theorem Effect.local_cases (e : s.Effect s') :
    s'.freshLocal = s.freshLocal ∨
      s'.freshLocal = s.freshLocal + 1 ∧ s.freshLocal ∈ s'.locals := by
  cases e with
  | @declare d outer p hs hp =>
    refine .inr ⟨rfl, hp ▸ mem_locals_of_open List.mem_cons_self ?_⟩
    exact List.mem_append_right _ List.mem_cons_self
  | abandon r => exact r.local_cases
  | attach r =>
    rw [freshLocal_attach, locals_attach]
    exact r.local_cases
  | _ => exact .inl rfl

theorem effect_exec (s : Session) (c : Command) (σ : Store) : s.Effect (s.exec c σ).1.2 :=
  effect_of_step (step_exec s c σ)

/-! ## Runs -/

/-- Counters only grow, and by at most one with each command. -/
theorem counters_follow (s : Session) (steps : List (Command × Store)) :
    (s.freshScope ≤ (s.follow steps).freshScope ∧
      (s.follow steps).freshScope ≤ s.freshScope + steps.length) ∧
    s.freshLocal ≤ (s.follow steps).freshLocal ∧
      (s.follow steps).freshLocal ≤ s.freshLocal + steps.length := by
  have raise : ∀ {first next last n : Nat}, next = first ∨ next = first + 1 →
      next ≤ last ∧ last ≤ next + n → first ≤ last ∧ last ≤ first + (n + 1) := by omega
  induction steps generalizing s with
  | nil => exact ⟨⟨Nat.le_refl _, Nat.le_refl _⟩, Nat.le_refl _, Nat.le_refl _⟩
  | cons step steps ih =>
    have e := s.effect_exec step.1 step.2
    obtain ⟨hscope, hlocal⟩ := ih (s.exec step.1 step.2).1.2
    exact ⟨raise (e.scope_cases.imp_right And.left) hscope,
      raise (e.local_cases.imp_right And.left) hlocal⟩

theorem counters_follow_new (steps : List (Command × Store)) :
    (follow {} steps).freshScope ≤ steps.length + 1 ∧ (follow {} steps).freshLocal ≤ steps.length := by
  obtain ⟨⟨-, hscope⟩, -, hlocal⟩ := counters_follow {} steps
  exact ⟨Nat.le_trans hscope (Nat.le_of_eq (Nat.add_comm _ _)),
    Nat.le_trans hlocal (Nat.le_of_eq (Nat.zero_add _))⟩

theorem Reachable.follow (h : Reachable s) (steps : List (Command × Store)) :
    Reachable (s.follow steps) := by
  induction steps generalizing s with
  | nil => exact h
  | cons step steps ih => exact ih (h.exec step.1 step.2)

/-- Ids are bounded by the number of commands. -/
theorem ids_follow (steps : List (Command × Store)) :
    (∀ d ∈ (follow {} steps).stack, d.id ≤ steps.length) ∧
    (∀ id sc, (follow {} steps).closed.get? id = some sc → id ≤ steps.length) ∧
    ∀ v ∈ (follow {} steps).locals, v < steps.length := by
  have hw := wellFormed_of_reachable (Reachable.new.follow steps)
  obtain ⟨hscope, hlocal⟩ := counters_follow_new steps
  refine ⟨fun d hd => ?_, fun id sc hsc => ?_, fun v hv => ?_⟩
  · exact Nat.le_of_lt_succ (Nat.lt_of_lt_of_le (hw.opened d hd).2.1 hscope)
  · exact Nat.le_of_lt_succ (Nat.lt_of_lt_of_le (hw.closed id sc hsc).2.2 hscope)
  · exact Nat.lt_of_lt_of_le (hw.fresh v hv) hlocal

theorem Fits.of_follow {steps : List (Command × Store)} (h : (s.follow steps).Fits) : s.Fits := by
  obtain ⟨⟨hscope, -⟩, hlocal, -⟩ := s.counters_follow steps
  exact ⟨Nat.lt_of_le_of_lt hscope h.1, Nat.lt_of_le_of_lt hlocal h.2⟩

theorem wrapCounters_of_fits (h : s.Fits) : s.wrapCounters = s := by
  rw [wrapCounters, Word.wrap_of_lt h.1, Word.wrap_of_lt h.2]

/-- What a command does is the same with counters that are words, up to the first that is none. -/
theorem execWord_of_fits {c : Command} {σ : Store} (h : (s.exec c σ).1.2.Fits) :
    s.execWord c σ = s.exec c σ := by
  have hwrap := wrapCounters_of_fits h
  show (((s.exec c σ).1.1, (s.exec c σ).1.2.wrapCounters), (s.exec c σ).2) = s.exec c σ
  rw [hwrap]
  rfl

theorem followWord_of_fits {steps : List (Command × Store)} (h : (s.follow steps).Fits) :
    s.followWord steps = s.follow steps := by
  induction steps generalizing s with
  | nil => rfl
  | cons step steps ih =>
    have hnext : (s.exec step.1 step.2).1.2.Fits := Fits.of_follow h
    rw [followWord, List.foldl_cons, execWord_of_fits hnext]
    exact ih h

/-- The id that was taken last is not below a counter that has wrapped. -/
theorem not_wellFormed_of_wrap (e : s.Effect s') (h : s.Fits) (h' : ¬ s'.Fits) :
    ¬ s'.wrapCounters.WellFormed := by
  intro hw
  by_cases hscope : s'.freshScope < Word.size
  · rcases e.local_cases with hsame | ⟨hnext, hmem⟩
    · exact h' ⟨hscope, hsame ▸ h.2⟩
    · have hlt : s.freshLocal < Word.wrap s'.freshLocal := hw.fresh _ hmem
      rw [Word.wrap_of_last h.2 hnext fun hlocal => h' ⟨hscope, hlocal⟩] at hlt
      exact absurd hlt (Nat.not_lt_zero _)
  · rcases e.scope_cases with hsame | ⟨hnext, d, hd, hid⟩
    · exact hscope (hsame ▸ h.1)
    · have hlt : d.id < Word.wrap s'.freshScope := (hw.opened d hd).2.1
      rw [Word.wrap_of_last h.1 hnext hscope] at hlt
      exact absurd hlt (Nat.not_lt_zero _)

theorem wellFormed_followWord_iff (h : Reachable s) (hf : s.Fits) (steps : List (Command × Store)) :
    (∀ n, (s.followWord (steps.take n)).WellFormed) ↔ (s.follow steps).Fits := by
  induction steps generalizing s with
  | nil => exact ⟨fun _ => hf, fun _ n => by rw [List.take_nil]; exact wellFormed_of_reachable h⟩
  | cons step steps ih =>
    have hreach := h.exec step.1 step.2
    by_cases hnext : (s.exec step.1 step.2).1.2.Fits
    · rw [follow, List.foldl_cons, ← follow, ← ih hreach hnext]
      constructor
      · intro hall n
        have hn := hall (n + 1)
        rwa [List.take_succ_cons, followWord, List.foldl_cons, execWord_of_fits hnext] at hn
      · intro hall n
        cases n with
        | zero => exact wellFormed_of_reachable h
        | succ n =>
          rw [List.take_succ_cons, followWord, List.foldl_cons, execWord_of_fits hnext]
          exact hall n
    · -- the first counter that is no word breaks the invariant, and later ones are none either
      refine ⟨fun hall => absurd (hall 1) ?_, fun hend => ?_⟩
      · exact not_wellFormed_of_wrap (s.effect_exec step.1 step.2) hf hnext
      · have hrest : ((s.exec step.1 step.2).1.2.follow steps).Fits := hend
        exact absurd hrest.of_follow hnext

theorem fits_new : Fits {} := ⟨by decide, by decide⟩

/-- The structural invariant, of sessions whose counters are words: it holds after every command of a
run, whatever the commands were and whichever of them failed, iff at its end neither counter would have
reached `Word.size`, and then the counters have not wrapped.  They are bounded by the number of
commands. -/
theorem wellFormed_iff_fits (steps : List (Command × Store)) :
    ((∀ n, (followWord {} (steps.take n)).WellFormed) ↔ (follow {} steps).Fits) ∧
    ((follow {} steps).Fits → followWord {} steps = follow {} steps) ∧
    (follow {} steps).freshScope ≤ steps.length + 1 ∧ (follow {} steps).freshLocal ≤ steps.length :=
  ⟨wellFormed_followWord_iff .new fits_new steps, followWord_of_fits, counters_follow_new steps⟩

/-- A run with failures: scope 2 asks for parameter 0 of scope 1 and is closed with its carrier in
parameter 1, a second parameter of the name `p` is refused, scope 3 is lost because its body reads
what it did not ask for, and scope 4 is recorded but has too many parameters to compile. -/
def interruption : List (Command × Store) :=
  let commands : List Command := [.enter .dummy, .declare .int "p" .dummy,
    .declare .bool "p" .dummy, .begin,
    .enter .dummy, .begin, .lookup "p", .close (.loc 0) false,
    .enter .dummy, .begin, .close (.loc 0) false,
    .enter .dummy] ++ (List.range 17).map (fun i => .declare .int (toString i) .dummy) ++
    [.begin, .close (.int 1) true, .enter .dummy]
  commands.map (·, {})

theorem wellFormed_iff_fits_interruption :
    (follow {} interruption).stack.map (fun d => (d.id, d.building, d.children)) =
      [(5, false, []), (1, true, [2])] ∧
    (follow {} interruption).closed.toList.map Prod.fst = [2, 4] ∧
    (follow {} interruption).mentions = [2] ∧ (follow {} interruption).locals.length = 19 ∧
    (follow {} interruption).freshLocal = 19 ∧ (follow {} interruption).Fits ∧
    ∀ n, (followWord {} (interruption.take n)).WellFormed := by
  have hfits : (follow {} interruption).Fits := ⟨by decide +kernel, by decide +kernel⟩
  exact ⟨by decide +kernel, by decide +kernel, by decide +kernel, by decide +kernel,
    by decide +kernel, hfits, (wellFormed_iff_fits interruption).1.mpr hfits⟩

/-! ## A counter that wraps -/

/-- A scope that is opened and lost: its body reads a parameter of no scope. -/
def lostScope : List (Command × Store) :=
  [(.enter .dummy, {}), (.begin, {}), (.close (.loc 0) false, {})]

def lostScopes : Nat → List (Command × Store)
  | 0 => []
  | n + 1 => lostScopes n ++ lostScope

theorem followWord_append (s : Session) (steps more : List (Command × Store)) :
    s.followWord (steps ++ more) = (s.followWord steps).followWord more :=
  List.foldl_append

/-- Nothing is left of a lost scope but the counter. -/
theorem followWord_lostScope (id : ScopeId) :
    followWord { freshScope := id } lostScope = { freshScope := Word.wrap (id + 1) } := by
  have h : followWord { freshScope := id } lostScope =
      { freshScope := Word.wrap (Word.wrap (Word.wrap (id + 1))) } := rfl
  rw [h, Word.wrap_wrap, Word.wrap_wrap]

theorem followWord_lostScopes (n : Nat) :
    followWord {} (lostScopes n) = { freshScope := Word.wrap (n + 1) } := by
  induction n with
  | zero => rfl
  | succ n ih =>
    rw [lostScopes, followWord_append, ih, followWord_lostScope, Word.wrap_wrap_succ]

/-- As many lost scopes as there are ids for scopes, and one more that is opened. -/
def exhaustion : List (Command × Store) := lostScopes (Word.size - 1) ++ lostScope.take 1

/-- The last scope has the id of the root. -/
theorem exhaustion_wraps :
    (followWord {} exhaustion).stack.map Draft.id = [rootScope] ∧
      ¬ (followWord {} exhaustion).WellFormed := by
  have hroot : Word.wrap (Word.size - 1 + 1) = rootScope := Word.wrap_size
  have hstack : (followWord {} exhaustion).stack = [{ id := rootScope, span := .dummy }] := by
    rw [exhaustion, followWord_append, followWord_lostScopes, hroot]
    rfl
  refine ⟨by rw [hstack]; rfl, fun hw => ?_⟩
  have hone := (hw.opened { id := rootScope, span := .dummy } (by rw [hstack]; exact .head _)).1
  exact absurd hone (by decide)

end ClosureConversion.Session
