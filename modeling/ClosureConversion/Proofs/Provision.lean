import ClosureConversion.Proofs.Translation
import ClosureConversion.Proofs.WellFormed

/-!
What a scope provides for the closures built in its body.

The carrier of a closure is filled in the body of the scope around it.  A slot is filled with a
parameter of that scope, or with what the scope received for it in its own carrier
(`Scope.Provides`).  `fills_as_reads`: the value is had in the same way as a read of it would be that
stands in the body, whatever the bodies are.
-/

namespace ClosureConversion

/-! ## Replacing nodes of a body -/

namespace Term

variable {f : Expr → Except Breach (Option Expr)} {t t' : Expr}

end Term

/-- Where the scope has the value of a slot, and the expression for it in its body. -/
inductive Scope.Provides (sc : Scope) (x : Slot) : Origin → Expr → Prop
  | own {v : LocalId} :
      x.value = .loc v → v ∈ sc.params.map Param.id → Provides sc x (.direct v) (.loc v)
  | forwarded {c : Carried} {i : Nat} {e : Expr} :
      sc.carried = some c → c.env.indexOf? x.value = some i → c.read i = .ok e →
      Provides sc x (.forwarded i) e

theorem Scope.Provides.resolveBody {sc : Scope} {x : Slot} {o : Origin} {e read : Expr}
    (h : sc.Provides x o e) (hown : ∀ v, sc.env.contains v = true → ¬ Declares sc.params v)
    (converted : ScopeId → Option Expr) (hr : read.capture? = some x.value) :
    Plan.resolveBody sc.carried converted read = .ok e := by
  cases h with
  | @own v hv hp =>
    rw [hv] at hr
    obtain rfl : read = .loc v := by
      cases read <;> simp_all [Term.capture?]
    refine Term.replaceM_leaf (Plan.resolveNode_of_not_captured sc converted rfl ?_) rfl
      (by simp) (by simp)
    rintro _ ⟨⟩ hcon
    exact hown _ hcon ((declares_loc _ v).mpr hp)
  | forwarded hc hi hread =>
    exact Term.replaceM_of_some
      (Plan.resolveNode_of_fetches sc converted hr ⟨_, _, hc, hi, hread⟩)

namespace Session

variable {around : ScopeId → List ScopeId} {decl : LocalId → Option (ScopeId × Ty)} {s : Session}

section

variable (hn : s.Nested around) (hd : s.Declared decl) (hc : s.Captured around decl)

include hn hd hc

/-- A scope has the values that the scopes its body uses capture. -/
theorem gives_of_uses (hf : s.Formed) {id c : ScopeId} {sc child : Scope}
    (hsc : s.closed.get? id = some sc) (huse : sc.body.Uses c)
    (hchild : s.closed.get? c = some child) {x : Slot} (hx : x ∈ child.env.slots) :
    ∃ e, sc.frame.Gives x e := by
  have hid := hn.closed id sc hsc
  have hb := hc.slots c child hchild x hx
  have hown := hb.owner_eq_iff (hd.closed id sc hsc) (Nat.ne_of_gt hid.2.1)
  by_cases ho : x.owner = id
  · obtain ⟨p, hp, hv⟩ := hown.mp ho
    exact ⟨.loc p.id, .own (ho.trans hid.1.symm) hv.symm (List.mem_map_of_mem hp)⟩
  · have hcon : sc.env.contains x.value = true := by
      refine ((hc.balanced id sc hsc).contains x.value).mpr ⟨fun h => ho (hown.mpr h), ?_⟩
      refine .inr ⟨c, huse, ?_⟩
      rw [ScopeTable.envOf_of_get? hchild]
      exact Env.contains_of_mem hx
    obtain ⟨e, k, i, hcar, hi, hr⟩ :=
      Scope.exists_fetches (fun k => hf.layout id sc k hsc) hcon
    refine ⟨e, ?_⟩
    unfold Scope.frame
    rw [hcar]
    exact .forwarded (fun e => ho (e.trans hid.1)) hi hr

end

end Session

end ClosureConversion
