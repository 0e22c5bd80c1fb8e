import ClosureConversion.Proofs.Agreement
import ClosureConversion.Proofs.ShapeNumbers

/-!
Sessions, but for when their scopes are compiled.

A scope that captures nothing may be compiled at once when it is closed, and then the body around it
holds its function in place of a placeholder.  `Term.symbolic` puts the placeholder back, and
`Scope.symbolic` forgets all that tells when a scope is compiled.  `Scope.outline` forgets the shapes of
its carriers too, which a process numbers as they come.

`Session.Rerun`: two runs of a front end that differ in which scopes are compiled at once.
`Rerun.parallel`: they have the same open scopes, and the same closed ones up to `Scope.outline`.
`Rerun.symbolic_eq`: they have the same closed ones up to `Scope.symbolic`, if they start from one table
of shapes, or end with tables that do not contradict each other.
-/

namespace ClosureConversion

/-! ## Bodies with placeholders -/

namespace Term

variable {φ : Type}

mutual

/-- The tree with a placeholder for every scope that it uses. -/
def symbolic : Term φ → Term φ
  | .arg v i ty => .arg v.symbolic i ty
  | .binary op l r => .binary op l.symbolic r.symbolic
  | .unary op e => .unary op e.symbolic
  | .compare op l r => .compare op l.symbolic r.symbolic
  | .logical op l r => .logical op l.symbolic r.symbolic
  | .cond c y n => .cond c.symbolic y.symbolic n.symbolic
  | .call f as => .call f.symbolic (symbolicAll as)
  | .delegate scope _ => .placeholder scope
  | .newCarrier s fs => .newCarrier s (symbolicAll fs)
  | .field c s i => .field c.symbolic s i
  | .bind c g n => .bind c.symbolic g n
  | t => t

def symbolicAll : List (Term φ) → List (Term φ)
  | [] => []
  | t :: ts => t.symbolic :: symbolicAll ts

end

theorem symbolicAll_eq_map (ts : List (Term φ)) : symbolicAll ts = ts.map symbolic := by
  induction ts with
  | nil => rfl
  | cons t ts ih => rw [symbolicAll, ih, List.map_cons]

theorem children_symbolic (t : Term φ) : t.symbolic.children = t.children.map symbolic := by
  cases t <;> simp [symbolic, children, symbolicAll_eq_map]

theorem nodes_symbolic (t : Term φ) : t.symbolic.nodes = t.nodes.map symbolic := by
  induction t using childInduction with
  | step t ih =>
    rw [nodes_eq, children_symbolic, nodes_eq t, List.map_cons, List.flatMap_map, List.map_flatMap]
    exact congrArg _ (List.flatMap_congr ih)

end Term

/-- The function of a scope adds to what a body uses as its placeholder does. -/
theorem Draft.see_symbolic (d : Draft) (u : BodyUse) (n : Expr) : d.see u n.symbolic = d.see u n := by
  cases n with
  | arg v i ty => cases v <;> rfl
  | _ => rfl

theorem Draft.uses_eq {body body' : Expr} (h : body.symbolic = body'.symbolic) (d : Draft) :
    d.uses body = d.uses body' := by
  have forget : ∀ e : Expr, d.uses e = d.uses e.symbolic := by
    intro e
    unfold uses
    rw [Term.nodes_symbolic, List.foldlM_map]
    simp only [see_symbolic]
  rw [forget, h, ← forget]

/-! ## Scopes and tables -/

/-- The scope, but for when it is compiled. -/
def Scope.symbolic (sc : Scope) : Scope :=
  { sc with body := sc.body.symbolic, eager := false, compiled := none }

/-- The scope, but for when it is compiled and for the shapes of its carriers. -/
def Scope.outline (sc : Scope) : Scope :=
  { sc.symbolic with carried := sc.carried.map Carried.unnumbered }

theorem Scope.env?_outline (sc : Scope) : sc.outline.env? = sc.env? := by
  show (sc.carried.map Carried.unnumbered).map Carried.env = sc.carried.map Carried.env
  cases sc.carried <;> rfl

theorem Scope.env?_eq {sc sc' : Scope} (h : sc.outline = sc'.outline) : sc.env? = sc'.env? := by
  rw [← sc.env?_outline, h, sc'.env?_outline]

/-- The outline leaves out only what carries the environment. -/
theorem Scope.symbolic_eq {sc sc' : Scope} (h : sc.outline = sc'.outline)
    (hc : sc.carried = sc'.carried) : sc.symbolic = sc'.symbolic := by
  have restore : ∀ x : Scope, x.symbolic = { x.outline with carried := x.carried } := fun _ => rfl
  rw [restore, restore, h, hc]

namespace ScopeTable

/-- The tables have the same scopes, but for when they are compiled and for the shapes of carriers. -/
def Parallel (t t' : ScopeTable) : Prop :=
  ∀ id, (t.get? id).map Scope.outline = (t'.get? id).map Scope.outline

namespace Parallel

variable {t t' : ScopeTable}

theorem symm (h : Parallel t t') : Parallel t' t := fun id => (h id).symm

theorem exists_scope (h : Parallel t t') {id : ScopeId} {sc : Scope} (hsc : t.get? id = some sc) :
    ∃ sc', t'.get? id = some sc' ∧ sc.outline = sc'.outline := by
  have hid := h id
  rw [hsc] at hid
  obtain ⟨sc', hsc', e⟩ := Option.map_eq_some_iff.mp hid.symm
  exact ⟨sc', hsc', e.symm⟩

theorem gather (h : Parallel t t') (d : Draft) (u : BodyUse) : d.gather t u = d.gather t' u :=
  gather_eq (fun id => elim_get?_eq (h id) none Scope.env?_outline) d u

theorem path (h : Parallel t t') {a b : ScopeId} (p : Path t t.living a b) :
    Path t' t'.living a b := by
  refine p.transfer (P := fun _ => True) (fun id _ hl => ?_) (fun id _ c hc => ⟨?_, trivial⟩) trivial
  · rw [mem_living] at hl ⊢
    obtain ⟨sc, hsc, ha⟩ := hl
    obtain ⟨sc', hsc', e⟩ := h.exists_scope hsc
    exact ⟨sc', hsc', (congrArg Scope.alive e).symm.trans ha⟩
  · have hchildren : t.childrenOf id = t'.childrenOf id := elim_get?_eq (h id) [] fun _ => rfl
    exact hchildren ▸ hc

/-- The same scopes die. -/
theorem retireAll (h : Parallel t t') (roots : List ScopeId) :
    Parallel (t.retireAll roots) (t'.retireAll roots) := by
  intro id
  cases hx : t.get? id with
  | none =>
    have hx' : t'.get? id = none := by
      have hid := h id
      rw [hx] at hid
      exact Option.map_eq_none_iff.mp hid.symm
    rw [(get?_retireAll_eq_none_iff t roots id).mpr hx,
      (get?_retireAll_eq_none_iff t' roots id).mpr hx']
  | some sc =>
    obtain ⟨sc', hx', e⟩ := h.exists_scope hx
    have halive : sc.alive = sc'.alive := show sc.outline.alive = sc'.outline.alive by rw [e]
    obtain ⟨alive, ha, hb⟩ := exists_flag_retireAll hx hx' halive fun r (_ : r ∈ roots) =>
      ⟨h.path, h.symm.path⟩
    have hflag : ∀ x : Scope, Scope.outline { x with alive := alive } =
        { x.outline with alive := alive } := fun _ => rfl
    rw [ha, hb, Option.map_some, Option.map_some, hflag, hflag, e]

end Parallel

end ScopeTable

/-! ## Two runs -/

/-- The command, but for when scopes are compiled. -/
def Command.symbolic : Command → Command
  | .close body _ => .close body.symbolic false
  | c => c

/-- Commands that differ in when scopes are compiled are the same, or close a scope with bodies that
use the same scopes in the same places. -/
theorem Command.cases_of_symbolic {c c' : Command} (h : c.symbolic = c'.symbolic) :
    (c = c' ∧ ∀ body eager, c ≠ .close body eager) ∨
      ∃ body eager body' eager', c = .close body eager ∧ c' = .close body' eager' ∧
        body.symbolic = body'.symbolic := by
  cases c with
  | close body eager =>
    cases c' with
    | close body' eager' => exact .inr ⟨body, eager, body', eager', rfl, rfl, (Command.close.inj h).1⟩
    | _ => cases h
  | _ =>
    cases c' with
    | close body eager => cases h
    | _ => exact .inl ⟨h, nofun⟩

namespace Session

/-- Two runs of a front end that give the same commands, but for when scopes are compiled; in both,
every scope is closed. -/
inductive Rerun (vars : String → Ty → Prop) (σ₀ τ₀ : Store) :
    Session → Store → List (ScopeId × Expr) → Session → Store → List (ScopeId × Expr) → Prop
  | new : σ₀.Valid → τ₀.Valid → Rerun vars σ₀ τ₀ {} σ₀ [] {} τ₀ []
  | exec {s t : Session} {σ τ : Store} {offers offers' : List (ScopeId × Expr)} {c c' : Command} :
      Rerun vars σ₀ τ₀ s σ offers t τ offers' → c.symbolic = c'.symbolic →
      s.Obeys vars offers c → t.Obeys vars offers' c' →
      (∀ body eager, c = .close body eager → (s.exec c σ).1.1.toBool = true) →
      (∀ body eager, c' = .close body eager → (t.exec c' τ).1.1.toBool = true) →
      Rerun vars σ₀ τ₀ (s.exec c σ).1.2 (s.exec c σ).2
        (offers ++ credit c (s.exec c σ).1.1 (s.exec c σ).1.2) (t.exec c' τ).1.2 (t.exec c' τ).2
        (offers' ++ credit c' (t.exec c' τ).1.1 (t.exec c' τ).1.2)

variable {vars : String → Ty → Prop} {σ₀ τ₀ σ τ σ' τ' : Store} {s t s' t' : Session}
  {offers offers' : List (ScopeId × Expr)}

theorem Rerun.frontEnd (h : Rerun vars σ₀ τ₀ s σ offers t τ offers') :
    FrontEnd vars s σ offers ∧ FrontEnd vars t τ offers' := by
  induction h with
  | new hσ hτ => exact ⟨.new hσ, .new hτ⟩
  | exec _ _ ho ho' _ _ ih => exact ⟨ih.1.exec _ ho, ih.2.exec _ ho'⟩

/-- Commands that close no scope and keep to the protocol whenever their turn comes. -/
theorem Rerun.run (h : Rerun vars σ₀ τ₀ s σ offers t τ offers') (cs : List Command)
    (ho : ∀ c ∈ cs, ∀ s offers, Obeys vars s offers c)
    (hc : ∀ c ∈ cs, ∀ body eager, c ≠ .close body eager) :
    Rerun vars σ₀ τ₀ (s.run cs σ).1.2 (s.run cs σ).2 (s.offersRun σ offers cs) (t.run cs τ).1.2
      (t.run cs τ).2 (t.offersRun τ offers' cs) := by
  induction cs generalizing s σ offers t τ offers' with
  | nil => exact h
  | cons c cs ih =>
    rw [List.forall_mem_cons] at ho hc
    have hopen : ∀ {P : Prop} body eager, c = .close body eager → P := fun body eager e =>
      absurd e (hc.1 body eager)
    exact ih (h.exec rfl (ho.1 s offers) (ho.1 t offers') hopen hopen) ho.2 hc.2

/-- The sessions are the same, but for when scopes are compiled and for the shapes of carriers. -/
structure Parallel (s t : Session) : Prop where
  stack : s.stack = t.stack
  roots : s.roots = t.roots
  freshScope : s.freshScope = t.freshScope
  freshLocal : s.freshLocal = t.freshLocal
  closed : s.closed.Parallel t.closed

/-! ### Commands other than closing -/

/-- The session with another table of closed scopes. -/
def withClosed (s : Session) (k : ScopeTable) : Session := { s with closed := k }

/-- Only closing looks at the closed scopes. -/
theorem exec_withClosed (s : Session) (k : ScopeTable) {c : Command}
    (hc : ∀ body eager, c ≠ .close body eager) (σ τ : Store) :
    (s.withClosed k).exec c τ = (((s.exec c σ).1.1, (s.exec c σ).1.2.withClosed k), τ) := by
  have settled : ∀ {α : Type} (f : α → Answer) {x y : Except ConversionError (α × Session)},
      x = y.map (Prod.map id (withClosed · k)) →
      (((s.withClosed k).settle f x, τ) : _ × Store) =
        (((s.settle f y).1, (s.settle f y).2.withClosed k), τ) := by
    rintro α f x y rfl
    cases y <;> rfl
  have hb : (s.withClosed k).building = s.building := rfl
  have hd : (s.withClosed k).declaring = s.declaring := rfl
  have hs : (s.withClosed k).stack = s.stack := rfl
  cases c with
  | enter span =>
    refine settled _ ?_
    unfold enter
    rw [hb, hs]
    cases s.stack.isEmpty <;> cases s.building <;> rfl
  | declare ty name span =>
    refine settled _ ?_
    unfold declare
    rw [hd]
    cases s.declaring with
    | error e => rfl
    | ok top =>
      simp only [bind, Except.bind]
      cases top.1.param? name <;> rfl
  | «begin» =>
    refine settled _ ?_
    unfold «begin»
    rw [hd]
    cases s.declaring <;> rfl
  | lookup name =>
    refine settled _ ?_
    unfold lookup
    rw [hb, hs]
    cases s.building with
    | error e => rfl
    | ok top =>
      simp only [bind, Except.bind]
      cases resolve name s.stack <;> rfl
  | argument index ty =>
    refine settled _ ?_
    unfold argument
    rw [hb, hs]
    cases s.building <;> rfl
  | var name ty =>
    refine settled _ ?_
    unfold var
    rw [hb, hs]
    cases s.building <;> rfl
  | close body eager => exact absurd rfl (hc body eager)

theorem exec_store {c : Command} (hc : ∀ body eager, c ≠ .close body eager) (s : Session)
    (σ : Store) : (s.exec c σ).2 = σ :=
  congrArg Prod.snd (exec_withClosed s s.closed hc σ σ)

theorem closed_exec {c : Command} (hc : ∀ body eager, c ≠ .close body eager) (s : Session)
    (σ : Store) : (s.exec c σ).1.2.closed = s.closed :=
  congrArg (fun r => r.1.2.closed) (exec_withClosed s s.closed hc σ σ)

theorem Parallel.exec (h : s.Parallel t) {c : Command} (hc : ∀ body eager, c ≠ .close body eager) :
    (s.exec c σ).1.2.Parallel (t.exec c τ).1.2 := by
  have ht : t = s.withClosed t.closed := by
    cases t
    simp only [withClosed, Session.mk.injEq]
    exact ⟨h.stack.symm, trivial, h.roots.symm, h.freshScope.symm, h.freshLocal.symm⟩
  have hrun : (t.exec c τ).1.2 = (s.exec c σ).1.2.withClosed t.closed := by
    rw [ht]
    exact congrArg (·.1.2) (exec_withClosed s _ hc σ τ)
  rw [hrun]
  refine ⟨rfl, rfl, rfl, rfl, ?_⟩
  rw [closed_exec hc]
  exact h.closed

/-! ### Closing -/

/-- A scope that is closed is recorded and attached, and only its layout asks for shapes. -/
theorem Closing.accepted {body : Expr} {eager : Bool} {e : Expr}
    (h : s.Closing body eager σ (.ok e) s' σ') :
    ∃ d outer u carried freshLocal σ₁ compiled s₁, s.Accepts body σ d outer u carried freshLocal σ₁ ∧
      s.Records d outer u { d.toScope body eager carried with compiled := compiled } s₁ ∧
      s₁.freshLocal = freshLocal ∧ s' = s₁.attach d.id ∧ σ'.shapes = σ₁.shapes := by
  generalize hr : Except.ok e = r at h
  cases h with
  | @compiled d outer u freshLocal f σ₁ _ acc he hrun =>
    refine ⟨d, outer, u, none, freshLocal, σ₁, f, _, acc, (acc.records eager).compile f, rfl, rfl, ?_⟩
    have hshapes := shapes_compileAlone
      (s.recorded d outer u (d.toScope body eager none) freshLocal).closed d.id σ₁
    rwa [show compileAlone _ _ σ₁ = _ from hrun] at hshapes
  | deferred acc _ => exact ⟨_, _, _, _, _, _, none, _, acc, acc.records eager, rfl, rfl, rfl⟩
  | _ => cases hr

section

variable {d : Draft} {outer : List Draft} {u : BodyUse} {body body' : Expr}
  {carried carried' : Option Carried} {freshLocal freshLocal' : LocalId}

/-- The same scope is closed in both sessions, and its layout is asked for at the same types. -/
theorem Parallel.accepts (h : s.Parallel t) (hbody : body.symbolic = body'.symbolic)
    (acc : s.Accepts body σ d outer u carried freshLocal σ') {d' : Draft} {outer' : List Draft}
    {u' : BodyUse} (acc' : t.Accepts body' τ d' outer' u' carried' freshLocal' τ') :
    d' = d ∧ outer' = outer ∧ u' = u ∧
      carry (d.gather s.closed u) d.span s.freshLocal σ = (.ok (carried, freshLocal), σ') ∧
      carry (d.gather s.closed u) d.span s.freshLocal τ = (.ok (carried', freshLocal'), τ') := by
  have hb := (building_eq_ok_iff.mp acc.building).1
  have hb' := (building_eq_ok_iff.mp acc'.building).1
  rw [← h.stack, hb] at hb'
  obtain ⟨rfl, rfl⟩ := List.cons.inj hb'
  have huses := acc'.uses
  rw [← Draft.uses_eq hbody, acc.uses] at huses
  obtain rfl := Except.ok.inj huses
  have hcarry := acc'.carry
  rw [← h.closed.gather, ← h.freshLocal] at hcarry
  exact ⟨rfl, rfl, rfl, acc.carry, hcarry⟩

theorem Parallel.attach (h : s.Parallel t) (id : ScopeId) : (s.attach id).Parallel (t.attach id) := by
  have hs := h.stack
  unfold Session.attach
  rw [← hs]
  cases s.stack with
  | nil => exact ⟨rfl, by rw [h.roots], h.freshScope, h.freshLocal, h.closed⟩
  | cons d outer => exact ⟨rfl, h.roots, h.freshScope, h.freshLocal, h.closed⟩

end

section

variable {body body' : Expr} {eager eager' : Bool} {e e' : Expr} (h : s.Parallel t)
  (hbody : body.symbolic = body'.symbolic) (hs : s.Closing body eager σ (.ok e) s' σ')
  (ht : t.Closing body' eager' τ (.ok e') t' τ')

include h hbody hs ht

theorem Parallel.close : s'.Parallel t' := by
  obtain ⟨d, outer, u, carried, fresh, σ₁, compiled, s₁, acc, r, hfresh, rfl, -⟩ := hs.accepted
  obtain ⟨d', outer', u', carried', fresh', τ₁, compiled', t₁, acc', r', hfresh', rfl, -⟩ :=
    ht.accepted
  obtain ⟨rfl, rfl, rfl, hc, hc'⟩ := h.accepts hbody acc acc'
  obtain ⟨hcarried, hlocal⟩ := carry_unnumbered hc hc'
  refine Parallel.attach ⟨?_, ?_, ?_, ?_, fun id => ?_⟩ d'.id
  · rw [r.stack, r'.stack]
  · rw [r.roots, r'.roots, h.roots]
  · rw [r.freshScope, r'.freshScope, h.freshScope]
  · rw [hfresh, hfresh', hlocal]
  · rw [r.get? id, r'.get? id]
    split
    · show some (Scope.outline _) = some (Scope.outline _)
      simp only [Scope.outline, Scope.symbolic, Draft.toScope, hbody, hcarried]
    · exact h.closed.retireAll _ id

/-- The new scope has the same layout in both sessions if shapes have consistent numbers. -/
theorem Parallel.carried_close
    (hcarried : ∀ id, (s.closed.get? id).map Scope.carried = (t.closed.get? id).map Scope.carried)
    (hn : σ'.shapes.Consistent τ'.shapes) (id : ScopeId) :
    (s'.closed.get? id).map Scope.carried = (t'.closed.get? id).map Scope.carried := by
  obtain ⟨d, outer, u, carried, fresh, σ₁, compiled, s₁, acc, r, -, rfl, hσ⟩ := hs.accepted
  obtain ⟨d', outer', u', carried', fresh', τ₁, compiled', t₁, acc', r', -, rfl, hτ⟩ := ht.accepted
  obtain ⟨rfl, rfl, rfl, hc, hc'⟩ := h.accepts hbody acc acc'
  rw [hσ, hτ] at hn
  have hsame : (carry (d'.gather s.closed u') d'.span s.freshLocal σ).1 =
      (carry (d'.gather s.closed u') d'.span s.freshLocal τ).1 :=
    carry_eq (by rw [hc, hc']; exact hn)
  rw [hc, hc'] at hsame
  obtain ⟨rfl, -⟩ := Prod.mk.inj (Except.ok.inj hsame)
  rw [closed_attach, closed_attach, r.get? id, r'.get? id]
  split
  · rfl
  · rw [ScopeTable.map_retireAll fun _ _ => rfl, ScopeTable.map_retireAll fun _ _ => rfl]
    exact hcarried id

theorem Parallel.shapes_close (hn : σ.shapes = τ.shapes) : σ'.shapes = τ'.shapes := by
  obtain ⟨d, outer, u, carried, fresh, σ₁, compiled, s₁, acc, -, -, -, hσ⟩ := hs.accepted
  obtain ⟨d', outer', u', carried', fresh', τ₁, compiled', t₁, acc', -, -, -, hτ⟩ := ht.accepted
  obtain ⟨rfl, rfl, rfl, hc, hc'⟩ := h.accepts hbody acc acc'
  have hshapes := shapes_carry (d'.gather s.closed u') d'.span s.freshLocal hn
  rw [hc, hc'] at hshapes
  rw [hσ, hτ, hshapes]

end

/-- The table of shapes only grows while scopes are closed. -/
theorem Closing.rows {body : Expr} {eager : Bool} {e : Expr}
    (h : s.Closing body eager σ (.ok e) s' σ') : σ.shapes.rows <+: σ'.shapes.rows := by
  obtain ⟨d, outer, u, carried, fresh, σ₁, compiled, s₁, acc, -, -, -, hσ⟩ := h.accepted
  have hrows := rows_carry (d.gather s.closed u) d.span s.freshLocal σ
  rw [show carry _ _ _ σ = _ from acc.carry] at hrows
  rwa [hσ]

/-! ### Whole runs -/

theorem closing_of_toBool {body : Expr} {eager : Bool}
    (h : (s.exec (.close body eager) σ).1.1.toBool = true) :
    ∃ e, s.Closing body eager σ (.ok e) (s.exec (.close body eager) σ).1.2
      (s.exec (.close body eager) σ).2 := by
  have hc := closing_close s body eager σ
  rw [exec_close] at h ⊢
  cases hr : (s.close body eager σ).1.1 with
  | error x =>
    rw [hr] at h
    cases h
  | ok e => exact ⟨e, hr ▸ hc⟩

/-- A step of two runs: they do the same, or both close a scope. -/
theorem exec_cases {c c' : Command} (hc : c.symbolic = c'.symbolic)
    (hok : ∀ body eager, c = .close body eager → (s.exec c σ).1.1.toBool = true)
    (hok' : ∀ body eager, c' = .close body eager → (t.exec c' τ).1.1.toBool = true) :
    (c = c' ∧ ∀ body eager, c ≠ .close body eager) ∨
      ∃ body eager body' eager' e e', body.symbolic = body'.symbolic ∧
        s.Closing body eager σ (.ok e) (s.exec c σ).1.2 (s.exec c σ).2 ∧
        t.Closing body' eager' τ (.ok e') (t.exec c' τ).1.2 (t.exec c' τ).2 := by
  rcases Command.cases_of_symbolic hc with h | ⟨body, eager, body', eager', rfl, rfl, hb⟩
  · exact .inl h
  · obtain ⟨e, hs⟩ := closing_of_toBool (hok body eager rfl)
    obtain ⟨e', ht⟩ := closing_of_toBool (hok' body' eager' rfl)
    exact .inr ⟨body, eager, body', eager', e, e', hb, hs, ht⟩

/-- Two runs stay the same, but for when scopes are compiled and for the shapes of carriers. -/
theorem Rerun.parallel (h : Rerun vars σ₀ τ₀ s σ offers t τ offers') : s.Parallel t := by
  induction h with
  | new _ _ => exact ⟨rfl, rfl, rfl, rfl, fun _ => rfl⟩
  | exec _ hc _ _ hok hok' ih =>
    rcases exec_cases hc hok hok' with ⟨rfl, hclose⟩ | ⟨_, _, _, _, e, e', hb, hs, ht⟩
    · exact ih.exec hclose
    · exact ih.close hb hs ht

/-- Runs that begin with one table of shapes end with one. -/
theorem Rerun.shapes_eq (h : Rerun vars σ₀ τ₀ s σ offers t τ offers')
    (h₀ : σ₀.shapes = τ₀.shapes) : σ.shapes = τ.shapes := by
  induction h with
  | new _ _ => exact h₀
  | exec hrun hc _ _ hok hok' ih =>
    rcases exec_cases hc hok hok' with ⟨rfl, hclose⟩ | ⟨_, _, _, _, e, e', hb, hs, ht⟩
    · rw [exec_store hclose, exec_store hclose]
      exact ih
    · exact hrun.parallel.shapes_close hb hs ht ih

/-- Two runs have the same layouts, if shapes have consistent numbers in the end. -/
theorem Rerun.carried_eq (h : Rerun vars σ₀ τ₀ s σ offers t τ offers')
    (hn : σ.shapes.Consistent τ.shapes) (id : ScopeId) :
    (s.closed.get? id).map Scope.carried = (t.closed.get? id).map Scope.carried := by
  induction h generalizing id with
  | new _ _ => rfl
  | exec hrun hc _ _ hok hok' ih =>
    rcases exec_cases hc hok hok' with ⟨rfl, hclose⟩ | ⟨_, _, _, _, e, e', hb, hs, ht⟩
    · rw [exec_store hclose, exec_store hclose] at hn
      rw [closed_exec hclose, closed_exec hclose]
      exact ih hn id
    · exact hrun.parallel.carried_close hb hs ht (ih (hn.of_prefix hs.rows ht.rows)) hn id

theorem Rerun.symbolic_eq (h : Rerun vars σ₀ τ₀ s σ offers t τ offers')
    (hn : σ₀.shapes = τ₀.shapes ∨ σ.shapes.Consistent τ.shapes) (id : ScopeId) :
    (s.closed.get? id).map Scope.symbolic = (t.closed.get? id).map Scope.symbolic := by
  have hconsistent : σ.shapes.Consistent τ.shapes := by
    rcases hn with h₀ | hn
    · rw [h.shapes_eq h₀]
      exact .refl _
    · exact hn
  have hcarried := h.carried_eq hconsistent id
  have houtline := h.parallel.closed id
  cases hs : s.closed.get? id with
  | none =>
    rw [hs] at houtline
    rw [Option.map_eq_none_iff.mp houtline.symm]
  | some sc =>
    rw [hs] at houtline hcarried
    obtain ⟨sc', hsc', ho⟩ := Option.map_eq_some_iff.mp houtline.symm
    rw [hsc'] at hcarried ⊢
    exact congrArg some (Scope.symbolic_eq ho.symm (Option.some.inj hcarried))

end Session

end ClosureConversion
