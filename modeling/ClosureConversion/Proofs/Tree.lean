import ClosureConversion.Env

/-!
Expression trees by their children.

`Term.children` lists the subtrees that `Term.nodes` enters, so that `nodes_eq` is one equation for
all forms and `Term.childInduction` one induction step.  `Term.Reads`, `Term.ReadsIndex`,
`Term.ReadsName` and `Term.Uses` say what a tree reads and which scopes it uses, over its nodes.
-/

namespace ClosureConversion

namespace Term

variable {φ : Type}

/-- The subtrees of a node, left to right; the body of a lambda is none of them. -/
def children : Term φ → List (Term φ)
  | .arg v _ _ => [v]
  | .binary _ l r => [l, r]
  | .unary _ e => [e]
  | .compare _ l r => [l, r]
  | .logical _ l r => [l, r]
  | .cond c y n => [c, y, n]
  | .call f as => f :: as
  | .newCarrier _ fs => fs
  | .field c _ _ => [c]
  | .bind c _ _ => [c]
  | _ => []

theorem nodes_eq (t : Term φ) : t.nodes = t :: t.children.flatMap nodes := by
  cases t <;> simp [nodes, children, nodesAll_eq_flatMap]

theorem sizeOf_lt_of_mem_children {t c : Term φ} (h : c ∈ t.children) : sizeOf c < sizeOf t := by
  cases t <;> simp only [children, List.mem_cons, List.not_mem_nil, or_false] at h
  case call f as =>
    rcases h with rfl | h
    · simp
      omega
    · have := List.sizeOf_lt_of_mem h
      simp
      omega
  case newCarrier s fs =>
    have := List.sizeOf_lt_of_mem h
    simp
    omega
  all_goals
    rcases h with rfl | rfl | rfl | h <;> simp <;> omega

/-- What holds of a tree when it holds of its children holds of all trees. -/
theorem childInduction {P : Term φ → Prop} (step : ∀ t, (∀ c ∈ t.children, P c) → P t)
    (t : Term φ) : P t :=
  step t fun c hc =>
    have := sizeOf_lt_of_mem_children hc
    childInduction step c
termination_by sizeOf t

theorem mem_nodes (t n : Term φ) : n ∈ t.nodes ↔ n = t ∨ ∃ c ∈ t.children, n ∈ c.nodes := by
  rw [nodes_eq, List.mem_cons, List.mem_flatMap]

/-- The nodes of a node are nodes of the whole. -/
theorem nodes_trans {n m t : Term φ} (hm : m ∈ n.nodes) (hn : n ∈ t.nodes) : m ∈ t.nodes := by
  induction t using childInduction with
  | step t ih =>
    rcases (mem_nodes t n).mp hn with rfl | ⟨c, hc, h⟩
    · exact hm
    · exact (mem_nodes t m).mpr (.inr ⟨c, hc, ih c hc h⟩)

/-! ## What a tree reads -/

/-- A node reads `v`. -/
def Reads (t : Term φ) (v : Capture) : Prop := ∃ n ∈ t.nodes, n.capture? = some v

/-- A node reads entry `i` of the argument vector. -/
def ReadsIndex (t : Term φ) (i : Nat) : Prop := ∃ ty, .arg .args i ty ∈ t.nodes

/-- A node reads the variable `name`. -/
def ReadsName (t : Term φ) (name : String) : Prop := ∃ ty, .var name ty ∈ t.nodes

/-- A node stands for the scope `c`. -/
def Uses (t : Term φ) (c : ScopeId) : Prop := ∃ n ∈ t.nodes, n.scopeToken? = some c

/-- Where an entry of the argument vector is read, the vector is. -/
theorem ReadsIndex.args {t : Term φ} {i : Nat} (h : t.ReadsIndex i) : t.Reads .args := by
  obtain ⟨ty, h⟩ := h
  refine ⟨.args, nodes_trans ?_ h, rfl⟩
  simp [nodes]

theorem readsName_iff (t : Term φ) (name : String) : t.ReadsName name ↔ t.Reads (.var name) := by
  constructor
  · rintro ⟨ty, h⟩
    exact ⟨_, h, rfl⟩
  · rintro ⟨n, hn, hv⟩
    cases n <;> simp [capture?] at hv
    subst hv
    exact ⟨_, hn⟩

end Term

end ClosureConversion
