import ClosureConversion.Proofs.Outcome
import ClosureConversion.Proofs.Tree

/-!
Replacement meets the nodes that `Term.nodes` lists.

`Term.nodes` and `Term.replaceM` each go through a tree by a list of cases of their own.  That they go
through the same tree is stated over a log of a replacement: `logged f` is `f`, and notes what it is
asked and what it answers.

* `Follows ns log end`: the log is that of a walk over the nodes `ns` in their order.  Every node has
  its turn, except those below a node that was replaced; the walk stops at the first failure.
* `replaceM_follows_nodes`: the log of a replacement in `e` follows `e.nodes`.  If no node is replaced,
  the result is `e`; and if every node with a property is replaced, by something without it, the
  result is without it.

`rebuild` gives a node other children, so that `replaceM_eq` is one equation for all forms, as
`nodes_eq` is.
-/

namespace ClosureConversion

namespace Term

variable {φ : Type}

/-! ## Nodes and their children -/

/-- The node with other children in place of its own, as many of them. -/
def rebuild : Term φ → List (Term φ) → Term φ
  | .arg _ i ty, [v] => .arg v i ty
  | .binary op _ _, [l, r] => .binary op l r
  | .unary op _, [e] => .unary op e
  | .compare op _ _, [l, r] => .compare op l r
  | .logical op _ _, [l, r] => .logical op l r
  | .cond _ _ _, [c, y, n] => .cond c y n
  | .call _ _, f :: as => .call f as
  | .newCarrier s _, fs => .newCarrier s fs
  | .field _ s i, [c] => .field c s i
  | .bind _ f n, [c] => .bind c f n
  | t, _ => t

/-- The node by itself: what is left when its children are blanked out. -/
def shell (t : Term φ) : Term φ := t.rebuild (t.children.map fun _ => .void)

theorem rebuild_children (t : Term φ) : t.rebuild t.children = t := by
  cases t <;> rfl

theorem children_rebuild {t : Term φ} {cs : List (Term φ)} (h : cs.length = t.children.length) :
    (t.rebuild cs).children = cs := by
  cases t with
  | newCarrier shape fields => rfl
  | _ =>
    rcases cs with _ | ⟨a, _ | ⟨b, _ | ⟨c, cs⟩⟩⟩ <;> simp_all [children, rebuild]

/-- Other children make no difference to the node by itself. -/
theorem shell_rebuild {t : Term φ} {cs : List (Term φ)} (h : cs.length = t.children.length) :
    (t.rebuild cs).shell = t.shell := by
  have hblank : cs.map (fun _ => void) = t.children.map fun _ => (void : Term φ) := by
    rw [List.map_const', List.map_const', h]
  unfold shell
  rw [children_rebuild h, hblank]
  cases t with
  | newCarrier shape fields => rfl
  | _ =>
    rcases cs with _ | ⟨a, _ | ⟨b, _ | ⟨c, cs⟩⟩⟩ <;> simp_all [children, rebuild]

/-- A forest is built from the empty one by adding a tree at a time, over the forest of its children. -/
theorem forestInduction {P : List (Term φ) → Prop} (nil : P [])
    (cons : ∀ t ts, P t.children → P ts → P (t :: ts)) (ts : List (Term φ)) : P ts := by
  have add : ∀ t ts, P ts → P (t :: ts) := by
    intro t
    induction t using childInduction with
    | step t ih =>
      intro ts hts
      have forest : ∀ cs, (∀ c ∈ cs, c ∈ t.children) → P cs := by
        intro cs
        induction cs with
        | nil => exact fun _ => nil
        | cons c cs ihcs =>
          intro h
          rw [List.forall_mem_cons] at h
          exact ih c h.1 cs (ihcs h.2)
      exact cons t ts (forest t.children fun _ hc => hc) hts
  induction ts with
  | nil => exact nil
  | cons t ts ih => exact add t ts ih

/-! ## Replacement in a forest -/

section

variable {m : Type → Type} [Monad m] [LawfulMonad m] (f : Term φ → m (Option (Term φ)))

theorem replaceAllM_eq_mapM (ts : List (Term φ)) : replaceAllM f ts = ts.mapM (replaceM f) := by
  induction ts with
  | nil => rw [replaceAllM, List.mapM_nil]
  | cons t ts ih => rw [replaceAllM, List.mapM_cons, ih]

/-- A node is replaced, or it is kept and its children are treated one after the other. -/
theorem replaceM_eq (t : Term φ) :
    t.replaceM f = f t >>= fun
      | some r => pure r
      | none => t.rebuild <$> t.children.mapM (replaceM f) := by
  unfold replaceM
  congr 1
  funext o
  cases o with
  | some r => rfl
  | none =>
    cases t with
    | newCarrier shape fields =>
      simp only [replaceAllM_eq_mapM, children, bind_pure_comp]
      rfl
    | _ => simp [children, rebuild, replaceAllM_eq_mapM]

/-- A forest is treated tree by tree. -/
theorem mapM_replaceM_cons (t : Term φ) (ts : List (Term φ)) :
    (t :: ts).mapM (replaceM f) = f t >>= fun
      | some r => (r :: ·) <$> ts.mapM (replaceM f)
      | none => t.children.mapM (replaceM f) >>= fun cs =>
          (t.rebuild cs :: ·) <$> ts.mapM (replaceM f) := by
  rw [List.mapM_cons, replaceM_eq, bind_assoc]
  congr 1
  funext o
  cases o <;> simp

end

/-! ## The log of a replacement -/

variable {ε σ : Type}

/-- The nodes that a replacement was asked about, with the answers. -/
abbrev Log (ε φ : Type) := List (Term φ × Except ε (Option (Term φ)))

/-- `f`, with a note of what it is asked and what it answers. -/
def logged (f : Term φ → ExceptT ε (StateM σ) (Option (Term φ))) (t : Term φ) :
    ExceptT ε (StateM (σ × Log ε φ)) (Option (Term φ)) := fun (s, log) =>
  let (answer, s') := f t s
  (answer, s', log ++ [(t, answer)])

/-- The log of a replacement in a tree. -/
def log (f : Term φ → ExceptT ε (StateM σ) (Option (Term φ))) (t : Term φ) (s : σ) : Log ε φ :=
  (t.replaceM (logged f) (s, [])).2.2

/-- How a forest is treated: the log that is made, and the outcome. -/
inductive Treats : List (Term φ) → Log ε φ → Except ε (List (Term φ)) → Prop
  | done : Treats [] [] (.ok [])
  | fails {t : Term φ} {ts : List (Term φ)} {err : ε} :
      Treats (t :: ts) [(t, .error err)] (.error err)
  | replaces {t u : Term φ} {ts : List (Term φ)} {log : Log ε φ} {r : Except ε (List (Term φ))} :
      Treats ts log r → Treats (t :: ts) ((t, .ok (some u)) :: log) (r.map (u :: ·))
  | keeps {t : Term φ} {ts cs : List (Term φ)} {log log' : Log ε φ}
      {r : Except ε (List (Term φ))} :
      Treats t.children log (.ok cs) → Treats ts log' r →
      Treats (t :: ts) ((t, .ok none) :: (log ++ log')) (r.map (t.rebuild cs :: ·))
  | stops {t : Term φ} {ts : List (Term φ)} {log : Log ε φ} {err : ε} :
      Treats t.children log (.error err) →
      Treats (t :: ts) ((t, .ok none) :: log) (.error err)

section

variable (f : Term φ → ExceptT ε (StateM σ) (Option (Term φ)))

/-- Notes are taken and nothing else changes; what is noted is how the forest is treated. -/
theorem treats_mapM (ts : List (Term φ)) : ∀ (s : σ) (before : Log ε φ), ∃ log,
    ts.mapM (replaceM (logged f)) (s, before) =
      ((ts.mapM (replaceM f) s).1, (ts.mapM (replaceM f) s).2, before ++ log) ∧
    Treats ts log (ts.mapM (replaceM f) s).1 := by
  induction ts using forestInduction with
  | nil =>
    intro s before
    refine ⟨[], ?_, .done⟩
    rw [List.append_nil]
    rfl
  | cons t ts ihc ih =>
    intro s before
    rw [mapM_replaceM_cons, mapM_replaceM_cons]
    cases ha : f t s with
    | mk answer s' =>
      have hl : logged f t (s, before) = (answer, s', before ++ [(t, answer)]) := by
        simp only [logged, ha]
      rcases answer with err | _ | u
      · rw [Outcome.bind_error ha, Outcome.bind_error hl]
        exact ⟨_, rfl, .fails⟩
      · rw [Outcome.bind_ok ha, Outcome.bind_ok hl]
        dsimp only
        obtain ⟨log, hrun, htreats⟩ := ihc s' (before ++ [(t, .ok none)])
        cases hc : t.children.mapM (replaceM f) s' with
        | mk r s'' =>
          rw [hc] at hrun htreats
          cases r with
          | error err =>
            rw [Outcome.bind_error hc, Outcome.bind_error hrun]
            exact ⟨(t, .ok none) :: log, by simp, .stops htreats⟩
          | ok cs =>
            rw [Outcome.bind_ok hc, Outcome.bind_ok hrun]
            obtain ⟨log', hrun', htreats'⟩ := ih s'' (before ++ [(t, .ok none)] ++ log)
            rw [Outcome.map_eq, Outcome.map_eq, hrun']
            exact ⟨(t, .ok none) :: (log ++ log'), by simp, .keeps htreats htreats'⟩
      · rw [Outcome.bind_ok ha, Outcome.bind_ok hl]
        dsimp only
        obtain ⟨log, hrun, htreats⟩ := ih s' (before ++ [(t, .ok (some u))])
        rw [Outcome.map_eq, Outcome.map_eq, hrun]
        exact ⟨(t, .ok (some u)) :: log, by simp, .replaces htreats⟩

theorem mapM_singleton {τ : Type} (g : Term φ → ExceptT ε (StateM τ) (Term φ)) (e : Term φ)
    (s : τ) : [e].mapM g s = ((g e s).1.map ([·]), (g e s).2) := by
  rw [← Outcome.map_eq, List.mapM_cons]
  simp

theorem treats_replaceM (e : Term φ) (s : σ) :
    e.replaceM (logged f) (s, []) = ((e.replaceM f s).1, (e.replaceM f s).2, e.log f s) ∧
    Treats [e] (e.log f s) ((e.replaceM f s).1.map ([·])) := by
  obtain ⟨log, hrun, htreats⟩ := treats_mapM f [e] s []
  simp only [mapM_singleton, List.nil_append] at hrun htreats
  have hlog : e.replaceM (logged f) (s, []) = ((e.replaceM f s).1, (e.replaceM f s).2, log) := by
    generalize e.replaceM (logged f) (s, []) = x at hrun ⊢
    generalize e.replaceM f s = y at hrun ⊢
    obtain ⟨_ | _, _⟩ := x <;> obtain ⟨_ | _, _⟩ := y <;> cases hrun <;> rfl
  obtain rfl : e.log f s = log := congrArg (·.2.2) hlog
  exact ⟨hlog, htreats⟩

end

/-! ## The order of the nodes -/

/-- The log of a walk over these nodes in their order, and how the walk ends.  A node that is replaced
takes all nodes below it out of the walk, and a failure ends it. -/
inductive Follows : List (Term φ) → Log ε φ → Except ε Unit → Prop
  | done : Follows [] [] (.ok ())
  | fails {n : Term φ} {ns : List (Term φ)} {err : ε} :
      Follows (n :: ns) [(n, .error err)] (.error err)
  | keeps {n : Term φ} {ns : List (Term φ)} {log : Log ε φ} {r : Except ε Unit} :
      Follows ns log r → Follows (n :: ns) ((n, .ok none) :: log) r
  | replaces {n u : Term φ} {ns : List (Term φ)} {log : Log ε φ} {r : Except ε Unit} :
      Follows ns log r → Follows (n.nodes ++ ns) ((n, .ok (some u)) :: log) r

namespace Follows

variable {ns ms : List (Term φ)} {log log' : Log ε φ} {r r' : Except ε Unit}

theorem append (h : Follows ns log r) (hr : r = .ok ()) (h' : Follows ms log' r') :
    Follows (ns ++ ms) (log ++ log') r' := by
  induction h with
  | done => exact h'
  | fails => cases hr
  | keeps _ ih => exact .keeps (ih hr)
  | replaces _ ih =>
    rw [List.append_assoc]
    exact .replaces (ih hr)

/-- A walk that fails has not come to what lies further on. -/
theorem append_right {err : ε} (h : Follows ns log r) (hr : r = .error err)
    (ms : List (Term φ)) : Follows (ns ++ ms) log r := by
  induction h with
  | done => cases hr
  | fails => exact .fails
  | keeps _ ih => exact .keeps (ih hr)
  | replaces _ ih =>
    rw [List.append_assoc]
    exact .replaces (ih hr)

end Follows

/-- The answer leaves nothing with the property in place of the node: it is no failure, a node with the
property is replaced, and what replaces a node is without the property all through. -/
def Clears (P : Term φ → Prop) (n : Term φ) : Except ε (Option (Term φ)) → Prop
  | .error _ => False
  | .ok none => ¬ P n.shell
  | .ok (some u) => ∀ m ∈ u.nodes, ¬ P m.shell

theorem map_eq_ok {α β : Type} {g : α → β} {r : Except ε α} {b : β} (h : r.map g = .ok b) :
    ∃ a, r = .ok a ∧ g a = b := by
  cases r with
  | error err => cases h
  | ok a => exact ⟨a, rfl, Except.ok.inj h⟩

theorem map_map_unit {α β : Type} (g : α → β) (r : Except ε α) :
    (r.map g).map (fun _ => ()) = r.map fun _ => () := by
  cases r <;> rfl

namespace Treats

variable {ts : List (Term φ)} {log : Log ε φ} {r : Except ε (List (Term φ))}

theorem follows (h : Treats ts log r) : Follows (ts.flatMap nodes) log (r.map fun _ => ()) := by
  induction h with
  | done => exact .done
  | @fails t ts err =>
    rw [List.flatMap_cons, nodes_eq]
    exact .fails
  | @replaces t u ts log r _ ih =>
    rw [List.flatMap_cons, map_map_unit]
    exact .replaces ih
  | @keeps t ts cs log log' r _ _ ihc ih =>
    rw [List.flatMap_cons, nodes_eq, map_map_unit]
    exact .keeps (ihc.append rfl ih)
  | @stops t ts log err _ ihc =>
    rw [List.flatMap_cons, nodes_eq]
    exact .keeps (ihc.append_right rfl _)

theorem length_eq (h : Treats ts log r) : ∀ us, r = .ok us → us.length = ts.length := by
  induction h with
  | done =>
    intro us hr
    cases hr
    rfl
  | fails | stops => exact fun us hr => nomatch hr
  | replaces _ ih | keeps _ _ _ ih =>
    intro us hr
    obtain ⟨vs, hvs, rfl⟩ := map_eq_ok hr
    simp [ih vs hvs]

/-- If every node is kept, nothing changes. -/
theorem eq_self (h : Treats ts log r) (hkeep : ∀ q ∈ log, q.2 = .ok none) : r = .ok ts := by
  induction h with
  | done => rfl
  | fails => cases hkeep _ List.mem_cons_self
  | replaces => cases hkeep _ List.mem_cons_self
  | @keeps t ts cs log log' r _ _ ihc ih =>
    rw [List.forall_mem_cons, List.forall_mem_append] at hkeep
    obtain ⟨-, hlog, hlog'⟩ := hkeep
    rw [ih hlog', Except.ok.inj (ihc hlog)]
    exact congrArg (fun t => Except.ok (t :: ts)) (rebuild_children t)
  | stops _ ihc =>
    rw [List.forall_mem_cons] at hkeep
    cases ihc hkeep.2

/-- If every answer clears its node of a property, no tree of the result has a node with it. -/
theorem clears {P : Term φ → Prop} (h : Treats ts log r) (hclear : ∀ q ∈ log, Clears P q.1 q.2) :
    ∃ us, r = .ok us ∧ ∀ u ∈ us, ∀ m ∈ u.nodes, ¬ P m.shell := by
  induction h with
  | done => exact ⟨[], rfl, by simp⟩
  | fails => exact (hclear _ List.mem_cons_self).elim
  | @replaces t u ts log r _ ih =>
    rw [List.forall_mem_cons] at hclear
    obtain ⟨us, rfl, hus⟩ := ih hclear.2
    exact ⟨u :: us, rfl, List.forall_mem_cons.mpr ⟨hclear.1, hus⟩⟩
  | @keeps t ts cs log log' r hcs _ ihc ih =>
    rw [List.forall_mem_cons, List.forall_mem_append] at hclear
    obtain ⟨hself, hlog, hlog'⟩ := hclear
    obtain ⟨_, hcs', hbelow⟩ := ihc hlog
    obtain rfl := Except.ok.inj hcs'
    obtain ⟨us, rfl, hus⟩ := ih hlog'
    have hlen := hcs.length_eq cs rfl
    refine ⟨t.rebuild cs :: us, rfl, List.forall_mem_cons.mpr ⟨fun m hm => ?_, hus⟩⟩
    rcases (mem_nodes _ m).mp hm with rfl | ⟨c, hc, hm⟩
    · -- the node itself is the one that was kept
      rw [shell_rebuild hlen]
      exact hself
    · rw [children_rebuild hlen] at hc
      exact hbelow c hc m hm
  | stops _ ihc =>
    rw [List.forall_mem_cons] at hclear
    obtain ⟨us, hr, -⟩ := ihc hclear.2
    cases hr

end Treats

/-- In every tree and for every `f`, which may have a state and may fail:

* the nodes that a replacement asks `f` about are the nodes of the tree in their order, less those
  below a replaced node, up to the first on which `f` fails, and the replacement fails with that
  failure or else succeeds;
* if `f` replaces none of them and does not fail, the result is the tree;
* whatever property of single nodes `f` clears the tree of, the result has no node with it. -/
theorem replaceM_follows_nodes (f : Term φ → ExceptT ε (StateM σ) (Option (Term φ))) (e : Term φ)
    (s : σ) :
    e.replaceM (logged f) (s, []) = ((e.replaceM f s).1, (e.replaceM f s).2, e.log f s) ∧
    Follows e.nodes (e.log f s) ((e.replaceM f s).1.map fun _ => ()) ∧
    ((∀ q ∈ e.log f s, q.2 = .ok none) → (e.replaceM f s).1 = .ok e) ∧
    ∀ P : Term φ → Prop, (∀ q ∈ e.log f s, Clears P q.1 q.2) →
      ∃ t, (e.replaceM f s).1 = .ok t ∧ ∀ m ∈ t.nodes, ¬ P m.shell := by
  obtain ⟨hrun, htreats⟩ := treats_replaceM f e s
  refine ⟨hrun, ?_, fun hkeep => ?_, fun P hclear => ?_⟩
  · have hfollows := htreats.follows
    rwa [map_map_unit, List.flatMap_singleton] at hfollows
  · obtain ⟨t, ht, hts⟩ := map_eq_ok (htreats.eq_self hkeep)
    rw [ht, List.singleton_inj.mp hts]
  · obtain ⟨us, hus, hnot⟩ := htreats.clears hclear
    obtain ⟨t, ht, rfl⟩ := map_eq_ok hus
    exact ⟨t, ht, hnot t List.mem_cons_self⟩

/-- Puts a parameter in place of an entry of an argument vector, numbered by how often it was asked
before; refuses to be asked more than `limit` times. -/
def numberEntries (limit : Nat) (t : Expr) : ExceptT String (StateM Nat) (Option Expr) := fun asked =>
  if asked < limit then
    match t with
    | .arg .. => (.ok (some (.loc asked)), asked + 1)
    | _ => (.ok none, asked + 1)
  else (.error "asked too often", asked)

/-- Adds an entry of the argument vector to a parameter, and compares the sum with a call. -/
def entrySum : Expr :=
  .compare .gt (.binary .add (.loc 1) (.arg .args 0 .int)) (.call (.placeholder 3) [.loc 2])

/-- Of eight nodes seven are asked about.  The vector is not, since the read of its entry is replaced,
and nothing in the result reads it.  With one question less, the last node is the first on which the
replacement fails. -/
theorem replaceM_follows_nodes_sum :
    let asked : List Expr := [entrySum, .binary .add (.loc 1) (.arg .args 0 .int), .loc 1,
      .arg .args 0 .int, .call (.placeholder 3) [.loc 2], .placeholder 3, .loc 2]
    (entrySum.log (numberEntries 7) 0).map Prod.fst = asked ∧
    Follows entrySum.nodes (entrySum.log (numberEntries 7) 0) (.ok ()) ∧
    (∃ t, (entrySum.replaceM (numberEntries 7) 0).1 = .ok t ∧ ∀ m ∈ t.nodes, m.shell ≠ .args) ∧
    (entrySum.log (numberEntries 6) 0).map Prod.fst = asked ∧
    Follows entrySum.nodes (entrySum.log (numberEntries 6) 0) (.error "asked too often") := by
  obtain ⟨-, hfollows, -, hclear⟩ := replaceM_follows_nodes (numberEntries 7) entrySum 0
  obtain ⟨-, hfollows', -, -⟩ := replaceM_follows_nodes (numberEntries 6) entrySum 0
  have hlog : entrySum.log (numberEntries 7) 0 = [(entrySum, .ok none),
      (.binary .add (.loc 1) (.arg .args 0 .int), .ok none), (.loc 1, .ok none),
      (.arg .args 0 .int, .ok (some (.loc 3))), (.call (.placeholder 3) [.loc 2], .ok none),
      (.placeholder 3, .ok none), (.loc 2, .ok none)] := by
    simp only [entrySum, log, replaceM, replaceAllM]
    rfl
  have hok : (entrySum.replaceM (numberEntries 7) 0).1.map (fun _ => ()) = .ok () := by
    simp only [entrySum, replaceM, replaceAllM]
    rfl
  have herror : (entrySum.replaceM (numberEntries 6) 0).1 = .error "asked too often" := by
    simp only [entrySum, replaceM, replaceAllM]
    rfl
  have hshort : (entrySum.log (numberEntries 6) 0).map Prod.fst =
      (entrySum.log (numberEntries 7) 0).map Prod.fst := by
    simp only [entrySum, log, replaceM, replaceAllM]
    rfl
  rw [hok] at hfollows
  rw [herror] at hfollows'
  refine ⟨by rw [hlog]; rfl, hfollows, hclear (· = .args) ?_, by rw [hshort, hlog]; rfl, hfollows'⟩
  have hentry : Clears (· = .args) (.arg .args 0 .int : Expr)
      (.ok (some (.loc 3)) : Except String (Option Expr)) := by
    simp [Clears, nodes, shell, rebuild]
  simp only [hlog, List.forall_mem_cons]
  refine ⟨?_, ?_, ?_, hentry, ?_, ?_, ?_, List.forall_mem_nil _⟩ <;> rintro ⟨⟩

end Term

end ClosureConversion
