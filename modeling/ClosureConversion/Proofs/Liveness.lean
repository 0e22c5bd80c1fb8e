import ClosureConversion.Proofs.FreeValues
import ClosureConversion.Proofs.Outcome
import ClosureConversion.Session.Finalize

/-!
Which scopes are dead, and which inputs the result of a session reads.

`alive_iff_used`: a child is alive iff its parent is and uses it, so all of a dead scope is dead; and
the inputs that a finished session reports are those that the bodies of the living scopes of its
tree read.  The report is made from the environments that `Plan.build` meets; it skips scopes that
are compiled already, but the environment of the root holds all that any living scope needs.
-/

namespace ClosureConversion

/-- The second scope is the first or lies within it. -/
inductive Within (t : ScopeTable) (a : ScopeId) : ScopeId → Prop
  | self : Within t a a
  | child {b c : ScopeId} : Within t a b → c ∈ t.childrenOf b → Within t a c

theorem TokenChain.snoc {t : ScopeTable} {sc mid last : Scope} {path : List Scope}
    (h : TokenChain t sc path mid) {c : ScopeId} (hc : c ∈ mid.children) (hu : mid.body.Uses c)
    (hl : t.get? c = some last) : TokenChain t sc (path ++ [last]) last := by
  induction h with
  | here sc => exact .step hc hu hl (.here last)
  | step hc' hu' hch _ ih => exact .step hc' hu' hch (ih hc hu)

namespace Session

variable {around : ScopeId → List ScopeId} {decl : LocalId → Option (ScopeId × Ty)} {s : Session}

/-! ## Living scopes -/

theorem chain_of_within (hn : s.Nested around) {id x : ScopeId} {sc last : Scope}
    (hsc : s.closed.get? id = some sc) (hw : Within s.closed id x)
    (hx : s.closed.get? x = some last) (ha : last.alive = true) :
    ∃ path, TokenChain s.closed sc path last := by
  induction hw generalizing last with
  | self =>
    obtain rfl := Option.some.inj (hsc.symm.trans hx)
    exact ⟨_, .here sc⟩
  | @child b c _ hmem ih =>
    obtain ⟨mid, hmid, hmem⟩ := ScopeTable.mem_childrenOf.mp hmem
    have hlive := (hn.aliveChild b mid hmid c hmem).mp ((ScopeTable.alive_iff hx).mpr ha)
    obtain ⟨path, hp⟩ := ih hmid hlive.1
    exact ⟨_, hp.snoc hmem hlive.2 hx⟩

/-- What a living scope needs, the scopes around it within a common one need too. -/
theorem has_of_within (hn : s.Nested around) {has : Env → Prop}
    (pass : ∀ id sc, s.closed.get? id = some sc → ∀ c, sc.body.Uses c →
      has (s.closed.envOf c) → has sc.env)
    {a x : ScopeId} (hw : Within s.closed a x) {sc : Scope} (hx : s.closed.get? x = some sc)
    (hal : sc.alive = true) (hhas : has sc.env) : has (s.closed.envOf a) := by
  induction hw generalizing sc with
  | self =>
    rw [ScopeTable.envOf_of_get? hx]
    exact hhas
  | @child b c _ hmem ih =>
    obtain ⟨mid, hmid, hmem⟩ := ScopeTable.mem_childrenOf.mp hmem
    have hlive := (hn.aliveChild b mid hmid c hmem).mp ((ScopeTable.alive_iff hx).mpr hal)
    refine ih hmid hlive.1 (pass b mid hmid c hlive.2 ?_)
    rw [ScopeTable.envOf_of_get? hx]
    exact hhas

end Session

/-! ## The inputs that a plan notes -/

namespace Plan

/-- One turn of the loop over the children. -/
def visit (t : ScopeTable) (depth : Nat) (id child : ScopeId) :
    ExceptT Breach (StateM InputUse) (Option Plan) := do
  match t.get? child with
  | none => throw (.unknownScope id child)
  | some c => if c.isPending then some <$> buildWithin t depth child else pure none

theorem buildWithin_succ {t : ScopeTable} {id : ScopeId} {sc : Scope} (h : t.get? id = some sc)
    (depth : Nat) (u : InputUse) :
    buildWithin t (depth + 1) id u =
      ((do return .node sc (← sc.children.filterMapM (visit t depth id))) :
        ExceptT Breach (StateM InputUse) Plan) (sc.env?.elim u u.add) := by
  unfold buildWithin
  rw [h]
  rfl

theorem buildWithin_zero (t : ScopeTable) (id : ScopeId) (u : InputUse) :
    buildWithin t 0 id u = (.error (.unknownScope id id), u) := rfl

section

variable {t : ScopeTable} {P : InputUse → Prop} {has : Env → Prop}
  (add : ∀ u env, P (u.add env) ↔ P u ∨ has env) (empty : ¬ has {})

include add empty

theorem noted_iff (sc : Scope) (u : InputUse) :
    P (sc.env?.elim u u.add) ↔ P u ∨ has sc.env := by
  unfold Scope.env
  cases sc.env? with
  | none => exact (or_iff_left empty).symm
  | some env => exact add u env

end

/-- From `u` to `u'` nothing is lost, and something is gained only if `B`. -/
def Grows (P : InputUse → Prop) (B : Prop) (u u' : InputUse) : Prop :=
  (P u → P u') ∧ (P u' → P u ∨ B)

theorem Grows.refl {P : InputUse → Prop} {B : Prop} (u : InputUse) : Grows P B u u :=
  ⟨id, .inl⟩

theorem Grows.trans {P : InputUse → Prop} {B : Prop} (u₁ u₂ u₃ : InputUse) (h₁ : Grows P B u₁ u₂)
    (h₂ : Grows P B u₂ u₃) : Grows P B u₁ u₃ :=
  ⟨h₂.1 ∘ h₁.1, fun h => (h₂.2 h).elim h₁.2 .inr⟩

section

variable {t : ScopeTable} {P : InputUse → Prop} {has : Env → Prop}
  (add : ∀ u env, P (u.add env) ↔ P u ∨ has env) (empty : ¬ has {}) {root : ScopeId} {B : Prop}
  (bound : ∀ x sc, Within t root x → t.get? x = some sc → sc.alive = true → has sc.env → B)

include add empty bound

theorem grows_note {id : ScopeId} {sc : Scope} (hw : Within t root id) (hsc : t.get? id = some sc)
    (ha : sc.alive = true) (u : InputUse) : Grows P B u (sc.env?.elim u u.add) := by
  unfold Grows
  rw [noted_iff add empty]
  exact ⟨.inl, Or.imp_right (bound id sc hw hsc ha)⟩

/-- Once the scope itself is noted, the plan keeps that, and adds only what a living scope needs. -/
theorem grows_buildWithin (depth : Nat) {id : ScopeId} {sc : Scope} (hw : Within t root id)
    (hsc : t.get? id = some sc) (u : InputUse) :
    Grows P B (sc.env?.elim u u.add) (buildWithin t (depth + 1) id u).2 := by
  induction depth using Nat.strongRecOn generalizing id sc u with
  | ind depth ih =>
    have turn : ∀ c ∈ sc.children, ∀ u, Grows P B u (visit t depth id c u).2 := by
      intro c hc u
      unfold visit
      cases hget : t.get? c with
      | none => exact .refl u
      | some child =>
        by_cases hp : child.isPending = true
        · have hwc := hw.child (ScopeTable.mem_childrenOf.mpr ⟨sc, hsc, hc⟩)
          have hac := (Bool.and_eq_true_iff.mp hp).1
          simp only [hp, if_true]
          rw [Outcome.map_eq]
          cases depth with
          | zero => exact .refl u
          | succ depth =>
            exact .trans _ _ _ (grows_note add empty bound hwc hget hac u)
              (ih depth (Nat.lt_succ_self _) hwc hget u)
        · simp only [hp]
          exact .refl u
    rw [buildWithin_succ hsc]
    refine Outcome.bind_rel Grows.trans ?_ fun _ u => .refl u
    exact Outcome.filterMapM_rel Grows.refl Grows.trans turn _

/-- The inputs noted for a plan of the root are those that its environment notes. -/
theorem noted_build {sc : Scope} (hsc : t.get? root = some sc) (ha : sc.alive = true)
    (hB : B → has sc.env) {plan : Plan} {u : InputUse} (hno : ¬ P {})
    (h : build t root {} = (.ok plan, u)) : P u ↔ has sc.env := by
  unfold build at h
  cases hsize : t.size with
  | zero =>
    rw [hsize, buildWithin_zero] at h
    cases h
  | succ depth =>
    have first := grows_note add empty bound .self hsc ha {}
    have rest := grows_buildWithin add empty bound depth .self hsc {}
    rw [hsize] at h
    rw [h] at rest
    constructor
    · intro hu
      exact hB (((first.trans _ _ _ rest).2 hu).resolve_left hno)
    · intro hh
      exact rest.1 ((noted_iff add empty sc {}).mpr (.inr hh))

end

end Plan

namespace Session

/-! ## Finished sessions -/

theorem finalize_eq {s : Session} {root : ScopeId} (hs : s.stack = []) (hr : s.roots = [root])
    (σ : Store) :
    s.finalize σ = ((do
      let plan ← .ofExcept (Plan.build s.closed root {}).1
      return ⟨← convertRoot s.closed root plan, (Plan.build s.closed root {}).2⟩) :
        ConvertM Finished) σ := by
  unfold finalize
  rw [hs, hr]
  rfl

theorem finalize_eq_ok {s : Session} {σ σ' : Store} {fin : Finished}
    (h : s.finalize σ = (.ok fin, σ')) :
    s.stack = [] ∧ ∃ root plan, s.roots = [root] ∧
      Plan.build s.closed root {} = (.ok plan, fin.used) ∧
      convertRoot s.closed root plan σ = (.ok fin.result, σ') := by
  cases hs : s.stack with
  | cons d outer =>
    unfold finalize at h
    rw [hs] at h
    cases h
  | nil =>
    match hr : s.roots with
    | [root] =>
      rw [finalize_eq hs hr] at h
      cases hb : Plan.build s.closed root {} with
      | mk r used =>
        cases r with
        | error b =>
          rw [hb] at h
          cases h
        | ok plan =>
          rw [hb] at h
          obtain ⟨_, σ₁, hp, h⟩ := Outcome.bind_eq_ok.mp h
          cases hp
          obtain ⟨result, σ₂, hc, he⟩ := Outcome.bind_eq_ok.mp h
          cases he
          exact ⟨rfl, root, plan, rfl, hb, hc⟩
    | [] | _ :: _ :: _ =>
      unfold finalize at h
      rw [hs, hr] at h
      cases h

/-- The inputs that a finished session reports are those that the environment of its root notes. -/
theorem noted_finalize {around : ScopeId → List ScopeId} {s : Session} (hn : s.Nested around)
    (P : InputUse → Prop) (has : Env → Prop) (add : ∀ u env, P (u.add env) ↔ P u ∨ has env)
    (empty : ¬ has {}) (hno : ¬ P {})
    (pass : ∀ id sc, s.closed.get? id = some sc → ∀ c, sc.body.Uses c →
      has (s.closed.envOf c) → has sc.env)
    {root : ScopeId} {plan : Plan} {used : InputUse} (hr : s.roots = [root])
    (hb : Plan.build s.closed root {} = (.ok plan, used)) :
    ∃ sc, s.closed.get? root = some sc ∧ sc.alive = true ∧ (P used ↔ has sc.env) := by
  obtain ⟨sc, hsc, ha⟩ := (hn.root root (hr ▸ List.mem_singleton_self root)).1
  refine ⟨sc, hsc, ha, ?_⟩
  refine Plan.noted_build (B := has sc.env) add empty ?_ hsc ha id hno hb
  intro x c hw hx hal hhas
  exact ScopeTable.envOf_of_get? hsc ▸ has_of_within hn pass hw hx hal hhas

end Session

end ClosureConversion
