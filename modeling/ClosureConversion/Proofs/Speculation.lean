import ClosureConversion.Proofs.Agreement
import ClosureConversion.Proofs.Protocol

/-!
Requests that come to nothing.

While a body is built, a front end may ask for values that the finished body does not read.  Of two
runs that differ in such requests alone (`Session.Speculates`), the one with more of them has more in
the environments that its open scopes were asked for, and is the same in all else (`Session.Ahead`).
A scope that is closed takes over what its body reads and drops the rest, and the order in which it
was asked for things does not matter.

`requests_leave_no_trace`: what succeeds without the further requests succeeds with them, the scopes
recorded are the same, and so is the result.  Two things can be seen: a body that reads a value which
only a further request asked for, and whether scopes have died that are part of no result since the
scope around them was lost.  `request_makes_room` has both, in runs whose further request is answered
with an expression that occurs in no body (`Session.Differs`).
-/

namespace ClosureConversion

/-! ## Two runs -/

/-- The command asks for a value. -/
def Command.isRequest : Command → Bool
  | .lookup _ | .argument _ _ | .var _ _ => true
  | _ => false

/-- A variable is asked for at its one type, and no idle expression occurs in a body. -/
def Command.Avoids (types : String → Ty) (idle : Expr → Prop) : Command → Prop
  | .var name ty => ty = types name
  | .close body _ => ∀ e ∈ body.nodes, ¬ idle e
  | _ => True

namespace Session

/-- Two runs from a new session, of which the second makes further requests.  Each variable is asked
for at one type.  What fails to close in the first run does not close in the second. -/
inductive Speculates (types : String → Ty) : Session → Session → Prop
  | new : Speculates types {} {}
  | both {s t : Session} {c : Command} (σ : Store) : Speculates types s t →
      (∀ name ty, c = .var name ty → ty = types name) →
      (∀ body eager, c = .close body eager → (s.exec c σ).1.1.toBool = false →
        (t.exec c σ).1.1.toBool = false) →
      Speculates types (s.exec c σ).1.2 (t.exec c σ).1.2
  | extra {s t : Session} {c : Command} (σ : Store) : Speculates types s t →
      (∀ name ty, c = .var name ty → ty = types name) → c.isRequest = true →
      (t.exec c σ).1.1.toBool = true → Speculates types s (t.exec c σ).1.2

variable {types : String → Ty} {s t s' t' : Session}

namespace Speculates

theorem typed (h : Speculates types s t) : t.Typed (fun name ty => ty = types name) := by
  induction h with
  | new => exact .new
  | both σ _ hty _ ih => exact ih.step (step_exec _ _ σ) hty
  | extra σ _ hty _ _ ih => exact ih.step (step_exec _ _ σ) hty

end Speculates

/-- The open scopes that are asked have no other slot for the value. -/
theorem slot_eq_of_grounded (h : t.Reachable) (hty : t.Typed (fun name ty => ty = types name))
    {inner outer : List Draft} {r : Request} (hs : t.stack = inner ++ outer)
    (hg : Grounded outer r) (hr : AtType (fun name ty => ty = types name) r.toSlot) {e : Draft}
    (he : e ∈ inner) {x : Slot} (hx : x ∈ e.requested.slots) (hv : x.value = r.toSlot.value) :
    x = r.toSlot := by
  obtain ⟨around, decl, hn, hd, hc⟩ := h.history
  have hmem : e ∈ t.stack := hs ▸ List.mem_append_left outer he
  exact (hc.requested e hmem x hx).eq_of_value (Captured.backs_of_grounded hn hd hs hg he)
    (hty.requested e hmem x hx) hr hv

/-- The sessions are the same, except that the open scopes of the second were asked for more, and for
the flags of scopes that do not belong to the session. -/
structure Ahead (s t : Session) : Prop where
  stack : List.Forall₂ Draft.Le s.stack t.stack
  roots : s.roots = t.roots
  freshScope : s.freshScope = t.freshScope
  freshLocal : s.freshLocal = t.freshLocal
  closed : ScopeTable.Agree s.Attached s.closed t.closed

theorem Attached.mono {id : ScopeId} (h : s.Attached id) (hr : ∀ r ∈ s.roots, s'.Attached r)
    (hs : ∀ d ∈ s.stack, ∀ c ∈ d.children, s'.Attached c)
    (hc : ∀ id, s.closed.childrenOf id = s'.closed.childrenOf id) : s'.Attached id := by
  induction h with
  | root h => exact hr _ h
  | openChild hd h => exact hs _ hd _ h
  | child _ hsc hmem ih =>
    obtain ⟨x, hx, hmem⟩ :=
      ScopeTable.mem_childrenOf.mp (hc _ ▸ ScopeTable.mem_childrenOf.mpr ⟨_, hsc, hmem⟩)
    exact .child ih hx hmem

theorem Attached.childrenOf {id c : ScopeId} (h : s.Attached id) (hc : c ∈ s.closed.childrenOf id) :
    s.Attached c := by
  obtain ⟨sc, hsc, hc⟩ := ScopeTable.mem_childrenOf.mp hc
  exact .child h hsc hc

/-- Nothing that belongs to the session without its innermost scope lies within that scope. -/
theorem Nested.not_path_of_attached {around : ScopeId → List ScopeId} (hn : s.Nested around)
    {d : Draft} {outer : List Draft} (hs : s.stack = d :: outer) {id r : ScopeId}
    (hid : Attached { s with stack := outer } id) (hr : r ∈ d.children) {living : List ScopeId} :
    ¬ s.closed.Path living r id := by
  intro p
  have hf := hn.of_cons hs
  have hpop : Nested around { s with stack := outer } := hf.pop
  have haround : d.id ∈ around id := by
    have hsuffix := hf.around_of_path p
    rw [(hf.openChild _ List.mem_cons_self r hr).2.2] at hsuffix
    rcases List.suffix_cons_iff.mp hsuffix with heq | hsub
    · rw [← (List.cons.inj heq).2]
      exact List.mem_cons_self
    · exact hsub.subset (List.mem_cons_of_mem r List.mem_cons_self)
  obtain ⟨params, hparams⟩ := hid.parameters?_around hpop haround
  unfold parameters? at hparams
  split at hparams
  · next e hfind =>
    have hlt := hf.nests.2.1 e.id (List.mem_map_of_mem (List.mem_map_of_mem
      (List.mem_of_find?_eq_some hfind)))
    have hid : e.id = d.id := by simpa using List.find?_some hfind
    exact Nat.ne_of_lt hlt hid
  · rw [(hf.opened _ List.mem_cons_self).2.2] at hparams
    cases hparams

namespace Ahead

theorem new : Ahead {} {} where
  stack := .nil
  roots := rfl
  freshScope := rfl
  freshLocal := rfl
  closed := ⟨rfl, fun _ => rfl, fun _ _ => rfl, fun _ hid _ => hid.childrenOf⟩

/-- Only the open scopes and the next ids change, and no child is new. -/
theorem of_stack (h : s.Ahead t) (hs : List.Forall₂ Draft.Le s'.stack t'.stack)
    (hc : ∀ d ∈ s'.stack, ∀ c ∈ d.children, ∃ e ∈ s.stack, c ∈ e.children)
    (hfs : s'.freshScope = t'.freshScope) (hfl : s'.freshLocal = t'.freshLocal)
    (hr : s'.roots = s.roots) (hcl : s'.closed = s.closed) (hr' : t'.roots = t.roots)
    (hcl' : t'.closed = t.closed) : s'.Ahead t' where
  stack := hs
  roots := by rw [hr, hr', h.roots]
  freshScope := hfs
  freshLocal := hfl
  closed := by
    rw [hcl, hcl']
    refine h.closed.mono (fun id hid => hid.mono (fun r hmem => .root (hr ▸ hmem)) ?_ ?_)
      fun id hid c hmem => hid.childrenOf (hcl ▸ hmem)
    · intro d hd c hmem
      obtain ⟨e, he, hmem⟩ := hc d hd c hmem
      exact .openChild he hmem
    · intro id
      rw [hcl]

/-! ### Commands in both runs -/

/-- The outcomes of a command that both runs give: the same error, or the same answer and again such
sessions. -/
inductive Outcomes {α : Type} :
    Except ConversionError (α × Session) → Except ConversionError (α × Session) → Prop
  | error (e : ConversionError) : Outcomes (.error e) (.error e)
  | ok {a : α} {s t : Session} : s.Ahead t → Outcomes (.ok (a, s)) (.ok (a, t))

theorem Outcomes.settle {α : Type} {x y : Except ConversionError (α × Session)}
    (h : Outcomes x y) (hst : s.Ahead t) (f : α → Answer) :
    (s.settle f x).1 = (t.settle f y).1 ∧ (s.settle f x).2.Ahead (t.settle f y).2 := by
  cases h with
  | error e => exact ⟨rfl, hst⟩
  | ok h => exact ⟨rfl, h⟩

/-- The innermost scopes are in the same phase, or both sessions refuse. -/
inductive Tops (s t : Session) : Except ConversionError (Draft × List Draft) →
    Except ConversionError (Draft × List Draft) → Prop
  | error (e : ConversionError) : Tops s t (.error e) (.error e)
  | ok {d e : Draft} {outer outer' : List Draft} : s.stack = d :: outer → t.stack = e :: outer' →
      d.Le e → List.Forall₂ Draft.Le outer outer' → Tops s t (.ok (d, outer)) (.ok (e, outer'))

section

variable (h : s.Ahead t)

include h

theorem building : Tops s t s.building t.building := by
  have hs := h.stack
  unfold Session.building
  generalize hx : s.stack = xs, hy : t.stack = ys at hs
  cases hs with
  | nil => exact .error _
  | @cons d e outer outer' hle hrest =>
    simp only [hle.building, hle.id]
    split
    · exact .ok hx hy hle hrest
    · exact .error _

theorem building_ok {d : Draft} {outer : List Draft} (hs : s.building = .ok (d, outer)) :
    ∃ e outer', t.building = .ok (e, outer') ∧ d.Le e ∧ List.Forall₂ Draft.Le outer outer' := by
  have hb := h.building
  rw [hs] at hb
  generalize t.building = y at hb
  cases hb with
  | ok _ _ hle hrest => exact ⟨_, _, rfl, hle, hrest⟩

theorem declaring : Tops s t s.declaring t.declaring := by
  have hs := h.stack
  unfold Session.declaring
  generalize hx : s.stack = xs, hy : t.stack = ys at hs
  cases hs with
  | nil => exact .error _
  | @cons d e outer outer' hle hrest =>
    simp only [hle.building, hle.id]
    split
    · exact .error _
    · exact .ok hx hy hle hrest

theorem enter (span : Span) : Outcomes (s.enter span) (t.enter span) := by
  have hnew : Ahead { s with
        stack := { id := s.freshScope, span } :: s.stack, freshScope := s.freshScope + 1 }
      { t with
        stack := { id := s.freshScope, span } :: t.stack, freshScope := s.freshScope + 1 } :=
    h.of_stack (.cons (.refl _) h.stack)
      (List.forall_mem_cons.mpr ⟨nofun, fun d hd c hc => ⟨d, hd, hc⟩⟩)
      rfl h.freshLocal rfl rfl rfl rfl
  have hempty : s.stack.isEmpty = t.stack.isEmpty := by
    have hs := h.stack
    generalize s.stack = xs, t.stack = ys at hs
    cases hs <;> rfl
  unfold Session.enter
  rw [hempty, ← h.freshScope]
  cases t.stack.isEmpty with
  | true => exact .ok hnew
  | false =>
    have hb := h.building
    generalize s.building = x, t.building = y at hb
    cases hb with
    | error e => exact .error e
    | ok _ _ _ _ => exact .ok hnew

/-- The innermost scope is replaced by one with the same children. -/
theorem replace {d d' e' : Draft} {outer outer' : List Draft} (hs : s.stack = d :: outer)
    (hle : d'.Le e') (hc : d'.children = d.children) (hrest : List.Forall₂ Draft.Le outer outer')
    {fresh fresh' : LocalId} (hf : fresh = fresh') :
    Ahead { s with stack := d' :: outer, freshLocal := fresh }
      { t with stack := e' :: outer', freshLocal := fresh' } := by
  refine h.of_stack (.cons hle hrest) ?_ h.freshScope hf rfl rfl rfl rfl
  rw [hs, List.forall_mem_cons]
  exact ⟨fun c hmem => ⟨d, List.mem_cons_self, hc ▸ hmem⟩,
    fun o ho c hmem => ⟨o, List.mem_cons_of_mem d ho, hmem⟩⟩

theorem declare (ty : Ty) (name : String) (span : Span) :
    Outcomes (s.declare ty name span) (t.declare ty name span) := by
  have hd := h.declaring
  unfold Session.declare
  rw [← h.freshLocal]
  generalize s.declaring = x, t.declaring = y at hd
  cases hd with
  | error e => exact .error e
  | @ok d e outer outer' hs ht hle hrest =>
    simp only [bind, Except.bind, hle.param? name]
    cases d.param? name with
    | some first => exact .error _
    | none =>
      have hle' : Draft.Le { d with params := d.params ++ [⟨s.freshLocal, name, ty, span⟩] }
          { e with params := e.params ++ [⟨s.freshLocal, name, ty, span⟩] } :=
        ⟨by rw [hle.eq], hle.requested⟩
      exact .ok (h.replace hs hle' rfl hrest rfl)

theorem begin : Outcomes ((Unit.unit, ·) <$> s.begin) ((Unit.unit, ·) <$> t.begin) := by
  have hd := h.declaring
  unfold Session.begin
  generalize s.declaring = x, t.declaring = y at hd
  cases hd with
  | error e => exact .error e
  | @ok d e outer outer' hs ht hle hrest =>
    have hle' : Draft.Le { d with building := true } { e with building := true } :=
      ⟨by rw [hle.eq], hle.requested⟩
    exact .ok (h.replace hs hle' rfl hrest h.freshLocal)

end

/-! ### Requests -/

/-- The same request of all scopes. -/
theorem request_le {xs ys : List Draft} (h : List.Forall₂ Draft.Le xs ys) {r : Request}
    (hr : ∀ e ∈ ys, ∀ x ∈ e.requested.slots, x.value = r.toSlot.value → x = r.toSlot) :
    List.Forall₂ Draft.Le (xs.map (·.request r)) (ys.map (·.request r)) := by
  induction h with
  | nil => exact .nil
  | cons hle _ ih =>
    rw [List.forall_mem_cons] at hr
    exact .cons (hle.request hr.1) (ih hr.2)

/-- A further request of the inner scopes. -/
theorem more_le {xs inner outer : List Draft} (h : List.Forall₂ Draft.Le xs (inner ++ outer))
    (r : Request) : List.Forall₂ Draft.Le xs (inner.map (·.request r) ++ outer) := by
  induction inner generalizing xs with
  | nil => exact h
  | cons e inner ih =>
    obtain ⟨d, xs, hle, hrest, rfl⟩ := List.forall₂_cons_right_iff.mp h
    exact .cons (hle.more r) (ih hrest)

/-- The same parameter is found, and the same scopes are asked for it. -/
theorem resolve_le (name : String) {xs ys : List Draft} (h : List.Forall₂ Draft.Le xs ys)
    (hr : ∀ inner o outer p, ys = inner ++ o :: outer → p ∈ o.params →
      ∀ e ∈ inner, ∀ x ∈ e.requested.slots, x.value = .loc p.id → x = ⟨.loc p.id, p.ty, o.id⟩) :
    resolve name xs = none ∧ resolve name ys = none ∨
      ∃ p owner out out', resolve name xs = some (p, owner, out) ∧
        resolve name ys = some (p, owner, out') ∧ List.Forall₂ Draft.Le out out' := by
  induction h with
  | nil => exact .inl ⟨rfl, rfl⟩
  | @cons d e xs ys hle hrest ih =>
    unfold resolve
    rw [hle.param? name]
    cases d.param? name with
    | some p => exact .inr ⟨p, d.id, d :: xs, e :: ys, rfl, by rw [hle.id], .cons hle hrest⟩
    | none =>
      rcases ih fun inner o outer p hy hp x hx =>
          hr (e :: inner) o outer p (by rw [hy]; rfl) hp x (List.mem_cons_of_mem e hx) with
        ⟨hx, hy⟩ | ⟨p, owner, out, out', hx, hy, hout⟩
      · exact .inl ⟨by rw [hx]; rfl, by rw [hy]; rfl⟩
      · refine .inr ⟨p, owner, _, _, by rw [hx]; rfl, by rw [hy]; rfl, .cons ?_ hout⟩
        obtain ⟨inner, o, outer, hys, -, ho, rfl, -⟩ := resolve_eq_some hy
        exact hle.request fun x hx hv =>
          hr (e :: inner) o outer p (by rw [hys]; rfl) (List.mem_of_find?_eq_some ho) e
            List.mem_cons_self x hx hv

section

variable (h : s.Ahead t) (hr : t.Reachable) (hty : t.Typed (fun name ty => ty = types name))

include h hr hty

theorem requestAll {r : Request} (hg : Grounded [] r)
    (hrt : AtType (fun name ty => ty = types name) r.toSlot) :
    Ahead { s with stack := s.stack.map (·.request r) }
      { t with stack := t.stack.map (·.request r) } := by
  refine h.of_stack (request_le h.stack ?_) ?_ h.freshScope h.freshLocal rfl rfl rfl rfl
  · intro e he x hx hv
    exact slot_eq_of_grounded hr hty (List.append_nil t.stack).symm hg hrt he hx hv
  · intro d hd c hc
    obtain ⟨e, he, rfl⟩ := List.mem_map.mp hd
    exact ⟨e, he, hc⟩

theorem argument (index : Nat) (ty : Ty) :
    Outcomes (s.argument index ty) (t.argument index ty) := by
  have hb := h.building
  unfold Session.argument
  generalize s.building = x, t.building = y at hb
  cases hb with
  | error e => exact .error e
  | ok _ _ _ _ => exact .ok (h.requestAll hr hty (.argument index rfl) nofun)

theorem var (name : String) : Outcomes (s.var name (types name)) (t.var name (types name)) := by
  have hb := h.building
  unfold Session.var
  generalize s.building = x, t.building = y at hb
  cases hb with
  | error e => exact .error e
  | ok _ _ _ _ =>
    refine .ok (h.requestAll hr hty (.var name (types name) rfl) ?_)
    rintro _ ⟨⟩
    rfl

theorem lookup (name : String) : Outcomes (s.lookup name) (t.lookup name) := by
  have hb := h.building
  have hres := resolve_le name h.stack fun inner o outer p hs hp e he x hx hv =>
    slot_eq_of_grounded hr hty hs (.loc (o := o) (p := p) rfl hp) nofun he hx hv
  unfold Session.lookup
  generalize s.building = x, t.building = y at hb
  cases hb with
  | error e => exact .error e
  | ok _ _ _ _ =>
    rcases hres with ⟨hx, hy⟩ | ⟨p, owner, out, out', hx, hy, hout⟩
    · simp only [hx, hy, bind, Except.bind]
      exact .ok h
    · simp only [hx, hy, bind, Except.bind]
      refine .ok (h.of_stack hout ?_ h.freshScope h.freshLocal rfl rfl rfl rfl)
      -- the scopes that are asked keep their children
      obtain ⟨inner, o, outer, hs, -, -, -, rfl⟩ := resolve_eq_some hx
      intro d hd c hc
      rw [hs]
      rcases List.mem_append.mp hd with hd | hd
      · obtain ⟨e, he, rfl⟩ := List.mem_map.mp hd
        exact ⟨e, List.mem_append_left _ he, hc⟩
      · exact ⟨d, List.mem_append_right _ hd, hc⟩

end

/-- A request of the second run alone. -/
theorem extra (h : s.Ahead t) {c : Command} (hc : c.isRequest = true) (σ : Store) :
    s.Ahead (t.exec c σ).1.2 := by
  have asked : ∀ {inner outer : List Draft} {r : Request}, t.stack = inner ++ outer →
      s.Ahead { t with stack := inner.map (·.request r) ++ outer } := by
    intro inner outer r hs
    exact { h with stack := more_le (hs ▸ h.stack) r }
  have all : ∀ r : Request, s.Ahead { t with stack := t.stack.map (·.request r) } := by
    intro r
    simpa using asked (r := r) (List.append_nil t.stack).symm
  have hstep := step_exec t c σ
  generalize (t.exec c σ).1.1 = a, (t.exec c σ).1.2 = t', (t.exec c σ).2 = σ' at hstep
  cases hstep with
  | failed _ => exact h
  | notFound _ => exact h
  | found _ hs _ _ => exact asked hs
  | argument _ => exact all _
  | var _ => exact all _
  | _ => cases hc

/-! ### Closing in both runs -/

/-- The same children, scope by scope. -/
theorem children_le {xs ys : List Draft} (h : List.Forall₂ Draft.Le xs ys) :
    xs.map Draft.children = ys.map Draft.children := by
  induction h with
  | nil => rfl
  | cons hle _ ih => rw [List.map_cons, List.map_cons, hle.children, ih]

/-- What belongs to a session depends on the lists of children. -/
theorem attached_of_children {id : ScopeId} (hid : s.Attached id)
    (hs : s.stack.map Draft.children = t.stack.map Draft.children) (hr : s.roots = t.roots)
    (hc : ∀ id, s.closed.childrenOf id = t.closed.childrenOf id) : t.Attached id := by
  refine hid.mono (fun r hmem => .root (hr ▸ hmem)) (fun d hd c hmem => ?_) hc
  have hmap : d.children ∈ t.stack.map Draft.children := hs ▸ List.mem_map_of_mem hd
  obtain ⟨e, he, heq⟩ := List.mem_map.mp hmap
  exact .openChild he (heq ▸ hmem)

/-- The innermost scopes are lost, and scopes within them may have died, not the same in both. -/
theorem lost (h : s.Ahead t) {around around' : ScopeId → List ScopeId} (hns : s.Nested around)
    (hnt : t.Nested around') {d e : Draft} {outer outer' : List Draft} (hs : s.stack = d :: outer)
    (ht : t.stack = e :: outer') (hrest : List.Forall₂ Draft.Le outer outer')
    {dead dead' : List ScopeId} (hd : ∀ r ∈ dead, r ∈ d.children)
    (hd' : ∀ r ∈ dead', r ∈ e.children) :
    Ahead { s with stack := outer, closed := s.closed.retireAll dead }
      { t with stack := outer', closed := t.closed.retireAll dead' } where
  stack := hrest
  roots := h.roots
  freshScope := h.freshScope
  freshLocal := h.freshLocal
  closed := by
    have popped : ∀ id, Attached { s with stack := outer, closed := s.closed.retireAll dead } id →
        Attached { s with stack := outer } id := fun id hid =>
      hid.mono (fun r hr => .root hr) (fun x hx c hc => .openChild hx hc)
        (ScopeTable.childrenOf_retireAll s.closed dead)
    refine h.closed.lose (fun id hid => ?_) (fun id hid c hc => ?_) (fun id hid r hr => ?_)
      fun id hid r hr => ?_
    · refine (popped id hid).mono (fun r hr => .root hr) (fun x hx c hc => ?_) fun _ => rfl
      exact .openChild (hs ▸ List.mem_cons_of_mem d hx) hc
    · exact hid.childrenOf ((ScopeTable.childrenOf_retireAll s.closed dead id).symm ▸ hc)
    · exact hns.not_path_of_attached hs (popped id hid) (hd r hr)
    · exact hnt.not_path_of_attached ht
        (attached_of_children (popped id hid) (children_le hrest) h.roots h.closed.childrenOf)
        (hd' r hr)

section

variable (h : s.Ahead t) {body : Expr} {σ σ' : Store} {d e : Draft} {outer outer' : List Draft}
  {u : BodyUse} {carried : Option Carried} {freshLocal : LocalId}

include h

/-- What the first session accepts, the second accepts. -/
theorem accepts (acc : s.Accepts body σ d outer u carried freshLocal σ')
    (hb : t.building = .ok (e, outer')) (hle : d.Le e) :
    t.Accepts body σ e outer' u carried freshLocal σ' where
  building := hb
  uses := hle.uses acc.uses
  requested := by
    rw [hle.gather, ← h.closed.gather]
    exact hle.checkRequested acc.requested
  carry := by
    rw [hle.gather, ← h.closed.gather, hle.span, ← h.freshLocal]
    exact acc.carry

/-- If the second session accepts a scope without captures then so does the first: nothing that was
asked for matters to it. -/
theorem accepts_of_static (hr : t.Reachable) (hb : s.building = .ok (d, outer)) (hle : d.Le e)
    (acc : t.Accepts body σ e outer' u none freshLocal σ') :
    s.Accepts body σ d outer u none freshLocal σ' := by
  obtain ⟨around, decl, hn, hd, hc⟩ := hr.history
  have hs := (building_eq_ok_iff.mp acc.building).1
  obtain ⟨hempty, -⟩ := carries_of_carry acc.carry
  have hnone := (Env.isEmpty_iff _).mp hempty
  have hnoted := hc.noted_gather hn hs acc.uses hd
  have hgather : d.gather s.closed u = e.gather t.closed u := by
    rw [hle.gather, h.closed.gather]
  have huses : d.uses body = .ok u := by
    obtain ⟨v, hv⟩ := (d.uses_isOk_iff body).mpr fun n hn => by
      refine ⟨fun v hv => .inl ?_, fun c hc => ?_⟩
      · -- whatever the body reads is a parameter
        by_contra hdec
        rw [← hle.params] at hdec
        have hread : u.env.contains v = true :=
          (Draft.contains_uses acc.uses v).mpr ⟨⟨n, hn, hv⟩, hdec⟩
        exact hnone v ((Draft.contains_gather u v).mpr (.inl hread))
      · rw [← hle.children]
        exact ((e.uses_isOk_iff body).mp ⟨u, acc.uses⟩ n hn).2 c hc
    exact hv.trans ((hle.uses hv).symm.trans acc.uses)
  constructor
  case building => exact hb
  case uses => exact huses
  case requested =>
    rw [Draft.checkRequested_eq_ok_iff, Env.isSubset_iff, hgather]
    exact ⟨fun x hx => absurd (Env.contains_of_mem hx) (hnone _),
      fun i hi => absurd (hnoted.index i hi) (hnone _)⟩
  case carry =>
    rw [hgather, ← hle.span, h.freshLocal]
    exact acc.carry

/-- The tables once the scope is recorded in both. -/
theorem agree_recorded (hs : s.stack = d :: outer) (outer' : List Draft) (hle : d.Le e)
    (u : BodyUse) (body : Expr) (eager : Bool) (carried : Option Carried) (fresh : LocalId) :
    ScopeTable.Agree (fun id => id = d.id ∨ s.Attached id)
      (s.recorded d outer u (d.toScope body eager carried) fresh).closed
      (t.recorded e outer' u (e.toScope body eager carried) fresh).closed := by
  have hmem : ∀ c ∈ d.children, s.Attached c := fun c hc =>
    .openChild (hs ▸ List.mem_cons_self) hc
  rw [hle.toScope]
  unfold recorded pruned
  rw [hle.unused]
  exact (h.closed.retireAll fun r hr => hmem r (unused_subset d u r hr)).insert
    (d.toScope body eager carried) hmem

end

section

variable {s₁ t₁ : Session} {d e : Draft} {outer outer' : List Draft} {u : BodyUse} {sc : Scope}

theorem childrenOf_records (r : s.Records d outer u sc s₁) (id : ScopeId) :
    s₁.closed.childrenOf id = if d.id = id then d.children else s.closed.childrenOf id := by
  rw [← ScopeTable.childrenOf_retireAll s.closed (d.unused u) id]
  unfold ScopeTable.childrenOf
  rw [r.get? id]
  split
  · exact r.children
  · rfl

/-- What belongs to a session in which a scope is recorded: that scope, and what belonged to it
before. -/
theorem attached_cases (r : s.Records d outer u sc s₁) {id : ScopeId}
    (hid : (s₁.attach d.id).Attached id) : id = d.id ∨ s.Attached id := by
  have belongs : ∀ x ∈ outer, ∀ c ∈ x.children, s.Attached c := fun x hx c hmem =>
    .openChild (r.stack_eq ▸ List.mem_cons_of_mem d hx) hmem
  induction hid with
  | @root x hmem =>
    cases hout : s₁.stack with
    | nil =>
      rw [attach_of_nil hout] at hmem
      rcases List.mem_append.mp hmem with hmem | hmem
      · exact .inr (.root (r.roots ▸ hmem))
      · exact .inl (List.mem_singleton.mp hmem)
    | cons o rest =>
      rw [attach_of_cons hout] at hmem
      exact .inr (.root (r.roots ▸ hmem))
  | @openChild x c hx hmem =>
    cases hout : s₁.stack with
    | nil =>
      rw [attach_of_nil hout, hout] at hx
      cases hx
    | cons o rest =>
      rw [attach_of_cons hout] at hx
      rw [r.stack] at hout
      rcases List.mem_cons.mp hx with rfl | hx
      · rcases List.mem_append.mp hmem with hmem | hmem
        · exact .inr (belongs o (hout ▸ List.mem_cons_self) c hmem)
        · exact .inl (List.mem_singleton.mp hmem)
      · exact .inr (belongs x (hout ▸ List.mem_cons_of_mem o hx) c hmem)
  | @child parent c x _ hx hmem ih =>
    rw [closed_attach] at hx
    have hmem : c ∈ s₁.closed.childrenOf parent := ScopeTable.mem_childrenOf.mpr ⟨x, hx, hmem⟩
    rw [childrenOf_records r] at hmem
    split at hmem
    · exact .inr (.openChild (r.stack_eq ▸ List.mem_cons_self) hmem)
    · next hne => exact .inr ((ih.resolve_left (Ne.symm hne)).childrenOf hmem)

variable (h : s.Ahead t) (r : s.Records d outer u sc s₁) {sc' : Scope}
  (r' : t.Records e outer' u sc' t₁) (hrest : List.Forall₂ Draft.Le outer outer')
  (hfl : s₁.freshLocal = t₁.freshLocal)
  (ha : ScopeTable.Agree (fun id => id = d.id ∨ s.Attached id) s₁.closed t₁.closed)

include h r r' hrest hfl ha

/-- Both sessions record the scope, and neither attaches it. -/
theorem abandon : s₁.Ahead t₁ where
  stack := by
    rw [r.stack, r'.stack]
    exact hrest
  roots := by rw [r.roots, r'.roots, h.roots]
  freshScope := by rw [r.freshScope, r'.freshScope, h.freshScope]
  freshLocal := hfl
  closed := by
    refine ha.mono (fun id hid => attached_cases r (hid.mono (fun x hx => ?_) (fun x hx c hc => ?_)
      fun k => ?_)) fun id hid c => hid.childrenOf
    · refine .root ?_
      unfold Session.attach
      split
      · exact hx
      · exact List.mem_append_left _ hx
    · unfold Session.attach
      split
      · next o rest hst =>
        rw [hst] at hx
        rcases List.mem_cons.mp hx with rfl | hx
        · exact .openChild List.mem_cons_self (List.mem_append_left _ hc)
        · exact .openChild (List.mem_cons_of_mem _ hx) hc
      · next hst =>
        rw [hst] at hx
        cases hx
    · rw [closed_attach]

/-- Both sessions record the scope and attach it. -/
theorem attach : (s₁.attach d.id).Ahead (t₁.attach d.id) := by
  have hbase := h.abandon r r' hrest hfl ha
  have hclosed : ScopeTable.Agree (s₁.attach d.id).Attached (s₁.attach d.id).closed
      (t₁.attach d.id).closed := by
    rw [closed_attach, closed_attach]
    refine ha.mono (fun id => attached_cases r) fun id hid c hmem => ?_
    exact hid.childrenOf ((closed_attach s₁ d.id).symm ▸ hmem)
  have hs := r.stack
  have ht := r'.stack
  cases hrest with
  | nil =>
    rw [attach_of_nil hs, attach_of_nil ht] at hclosed ⊢
    exact ⟨hbase.stack, by rw [hbase.roots], hbase.freshScope, hfl, hclosed⟩
  | @cons o o' rest rest' hle hrest =>
    rw [attach_of_cons hs, attach_of_cons ht] at hclosed ⊢
    refine ⟨.cons ⟨?_, hle.requested⟩ hrest, hbase.roots, hbase.freshScope, hfl, hclosed⟩
    rw [hle.eq]

end

theorem compileAlone_congr {P : ScopeId → Prop} {t t' : ScopeTable} (h : t.Agree P t')
    {id : ScopeId} (hid : P id) : compileAlone t id = compileAlone t' id := by
  unfold compileAlone
  rw [h.build hid]

/-- A scope that the first session accepts is closed in the same way in both. -/
theorem close_of_accepts (h : s.Ahead t) {body : Expr} {σ σ' : Store} {d e : Draft}
    {outer outer' : List Draft} {u : BodyUse} {carried : Option Carried} {fresh : LocalId}
    (acc : s.Accepts body σ d outer u carried fresh σ') (hb : t.building = .ok (e, outer'))
    (hle : d.Le e) (hrest : List.Forall₂ Draft.Le outer outer') (eager : Bool) :
    (s.close body eager σ).1.1 = (t.close body eager σ).1.1 ∧
      (s.close body eager σ).2 = (t.close body eager σ).2 ∧
      (s.close body eager σ).1.2.Ahead (t.close body eager σ).1.2 := by
  have hs := (building_eq_ok_iff.mp acc.building).1
  have acc' := h.accepts acc hb hle
  have ha := h.agree_recorded hs outer' hle u body eager carried fresh
  have r := acc.records eager
  have r' := acc'.records eager
  rw [close_eq_record acc eager, close_eq_record acc' eager]
  rw [hle.toScope] at ha r' ⊢
  cases hk : eager && carried.isNone with
  | false =>
    rw [record_of_not_compiled _ hk, record_of_not_compiled _ hk]
    exact ⟨rfl, rfl, h.attach r r' hrest rfl ha⟩
  | true =>
    cases hc : (compileAlone (s.recorded d outer u (d.toScope body eager carried) fresh).closed
        d.id).run σ' with
    | mk q σ'' =>
      have hc' : (compileAlone (t.recorded e outer' u (d.toScope body eager carried) fresh).closed
          d.id).run σ' = (q, σ'') := by
        rw [← compileAlone_congr ha (.inl rfl)]
        exact hc
      rw [record_of_compiled _ _ hk hc, record_of_compiled _ _ hk hc']
      cases q with
      | error x => exact ⟨rfl, rfl, h.abandon r r' hrest rfl ha⟩
      | ok f =>
        refine ⟨rfl, rfl, h.attach (r.compile f) (r'.compile f) hrest rfl (ha.replace (.inl rfl) ?_)⟩
        exact fun c hmem => .inr (.openChild (hs ▸ List.mem_cons_self) hmem)

end Ahead

/-- Closing succeeds only for a scope that is accepted. -/
theorem Closing.accepts {body : Expr} {eager : Bool} {σ σ' : Store} {x : Expr}
    (h : s.Closing body eager σ (.ok x) s' σ') :
    ∃ d outer u carried fresh σ₁, s.Accepts body σ d outer u carried fresh σ₁ := by
  cases h with
  | compiled acc _ _ => exact ⟨_, _, _, _, _, _, acc⟩
  | deferred acc _ => exact ⟨_, _, _, _, _, _, acc⟩

namespace Ahead

/-- The scope is lost in both sessions, unless the first accepts it. -/
theorem close_lost (h : s.Ahead t) (hrs : s.Reachable) (hrt : t.Reachable) {body : Expr}
    {eager : Bool} {σ σ' : Store} {d e : Draft} {outer outer' : List Draft}
    (hs : s.building = .ok (d, outer)) (ht : t.building = .ok (e, outer')) (hle : d.Le e)
    (hrest : List.Forall₂ Draft.Le outer outer')
    (hna : ∀ u carried fresh σ₁, ¬ s.Accepts body σ d outer u carried fresh σ₁)
    {dead : List ScopeId} (hd : ∀ r ∈ dead, r ∈ d.children) {x : ConversionError}
    (hcl : t.Closing body eager σ (.error x) t' σ') :
    Ahead { s with stack := outer, closed := s.closed.retireAll dead } t' := by
  obtain ⟨around, -, hns, -, -⟩ := hrs.history
  obtain ⟨around', -, hnt, -, -⟩ := hrt.history
  have lost : ∀ dead', (∀ r ∈ dead', r ∈ e.children) →
      Ahead { s with stack := outer, closed := s.closed.retireAll dead }
        { t with stack := outer', closed := t.closed.retireAll dead' } := fun dead' hd' =>
    h.lost hns hnt (building_eq_ok_iff.mp hs).1 (building_eq_ok_iff.mp ht).1 hrest hd hd'
  cases hcl with
  | refused hr =>
    rw [ht] at hr
    cases hr
  | rejected hr _ =>
    obtain ⟨rfl, rfl⟩ : e = _ ∧ outer' = _ := by simpa [ht] using hr
    exact lost [] nofun
  | unrequested hr _ _ =>
    obtain ⟨rfl, rfl⟩ : e = _ ∧ outer' = _ := by simpa [ht] using hr
    exact lost _ (unused_subset e _)
  | @uncarried e' _ u b _ hr _ _ hc =>
    obtain ⟨r, σ₁, hok, -⟩ := carry_isOk (e'.gather t.closed u) e'.span t.freshLocal σ
    rw [ExceptT.run, hok] at hc
    cases hc
  | uncompiled acc _ _ =>
    obtain ⟨rfl, rfl⟩ : e = _ ∧ outer' = _ := by simpa [ht] using acc.building
    exact absurd (h.accepts_of_static hrt hs hle acc) (hna _ _ _ _)

/-- Closing a scope in both sessions. -/
theorem close (h : s.Ahead t) (hrs : s.Reachable) (hrt : t.Reachable) (body : Expr) (eager : Bool)
    (σ : Store)
    (gain : (s.close body eager σ).1.1.toBool = false → (t.close body eager σ).1.1.toBool = false) :
    (s.close body eager σ).1.2.Ahead (t.close body eager σ).1.2 := by
  by_cases hacc : ∃ d outer u carried fresh σ₁, s.Accepts body σ d outer u carried fresh σ₁
  · obtain ⟨d, outer, u, carried, fresh, σ₁, acc⟩ := hacc
    obtain ⟨e, outer', ht, hle, hrest⟩ := h.building_ok acc.building
    exact (h.close_of_accepts acc ht hle hrest eager).2.2
  have hcl := closing_close s body eager σ
  have hcl' := closing_close t body eager σ
  generalize (s.close body eager σ).1.1 = a, (s.close body eager σ).1.2 = s',
    (s.close body eager σ).2 = σ' at hcl gain
  generalize (t.close body eager σ).1.1 = b, (t.close body eager σ).1.2 = t',
    (t.close body eager σ).2 = τ at hcl' gain
  have lost : ∀ {d : Draft} {outer : List Draft} (dead : List ScopeId), a.toBool = false →
      s.building = .ok (d, outer) → (∀ r ∈ dead, r ∈ d.children) →
      Ahead { s with stack := outer, closed := s.closed.retireAll dead } t' := by
    intro d outer dead ha hs hd
    obtain ⟨e, outer', ht, hle, hrest⟩ := h.building_ok hs
    have hb := gain ha
    cases b with
    | ok _ => cases hb
    | error x =>
      refine h.close_lost hrs hrt hs ht hle hrest (fun u carried fresh σ₁ acc => ?_) hd hcl'
      exact hacc ⟨_, _, _, _, _, _, acc⟩
  cases hcl with
  | refused hs =>
    have hb := h.building
    rw [hs] at hb
    generalize hy : t.building = y at hb
    cases hb with
    | error _ =>
      obtain ⟨rfl, -⟩ := hcl'.idle (by rw [hy]; exact nofun)
      exact h
  | rejected hs _ => exact lost [] rfl hs nofun
  | unrequested hs _ _ => exact lost _ rfl hs (unused_subset _ _)
  | uncarried hs _ _ _ => exact lost _ rfl hs (unused_subset _ _)
  | uncompiled acc _ _ => exact absurd ⟨_, _, _, _, _, _, acc⟩ hacc
  | compiled acc _ _ => exact absurd ⟨_, _, _, _, _, _, acc⟩ hacc
  | deferred acc _ => exact absurd ⟨_, _, _, _, _, _, acc⟩ hacc

/-- A command of both runs. -/
theorem exec (h : s.Ahead t) (hrs : s.Reachable) (hrt : t.Reachable)
    (hty : t.Typed (fun name ty => ty = types name)) {c : Command} (σ : Store)
    (hc : ∀ name ty, c = .var name ty → ty = types name)
    (gain : ∀ body eager, c = .close body eager → (s.exec c σ).1.1.toBool = false →
      (t.exec c σ).1.1.toBool = false) :
    (s.exec c σ).1.2.Ahead (t.exec c σ).1.2 := by
  cases c with
  | enter span => exact ((h.enter span).settle h _).2
  | declare ty name span => exact ((h.declare ty name span).settle h _).2
  | «begin» => exact (h.begin.settle h _).2
  | lookup name => exact ((h.lookup hrt hty name).settle h _).2
  | argument index ty => exact ((h.argument hrt hty index ty).settle h _).2
  | var name ty =>
    obtain rfl := hc name ty rfl
    exact ((h.var hrt hty name).settle h _).2
  | close body eager =>
    have failed : ∀ {r : Except ConversionError Expr}, (r.map Answer.expr).toBool = r.toBool := by
      intro r
      cases r <;> rfl
    refine h.close hrs hrt body eager σ fun ha => ?_
    have hg := gain body eager rfl (failed.trans ha)
    exact failed.symm.trans hg

end Ahead

/-- Finishing is the same for both. -/
theorem Ahead.finalize (h : s.Ahead t) (σ : Store) : s.finalize σ = t.finalize σ := by
  have hstack : s.stack.isEmpty = t.stack.isEmpty ∧ s.stack.length = t.stack.length := by
    have hs := h.stack
    have hlen := hs.length_eq
    generalize s.stack = xs, t.stack = ys at hs hlen ⊢
    cases hs with
    | nil => exact ⟨rfl, hlen⟩
    | cons _ _ => exact ⟨rfl, hlen⟩
  unfold Session.finalize
  rw [hstack.1, hstack.2, h.roots]
  have hroot : ∀ root ∈ t.roots, Plan.build s.closed root = Plan.build t.closed root ∧
      convertRoot s.closed root = convertRoot t.closed root := by
    intro root hmem
    have hid : s.Attached root := .root (h.roots ▸ hmem)
    refine ⟨h.closed.build hid, ?_⟩
    funext plan
    unfold convertRoot
    rw [h.closed.same root hid]
  cases hr : t.roots with
  | nil => rfl
  | cons root rest =>
    cases rest with
    | nil =>
      obtain ⟨hplan, hconv⟩ := hroot root (hr ▸ List.mem_cons_self)
      simp only [hplan, hconv]
    | cons _ _ => rfl

/-- The session after these commands. -/
def after (cs : List Command) : Session := cs.foldl (fun s c => (s.exec c {}).1.2) {}

/-- Two runs from a new session that differ in further requests of the second alone, each answered
with an idle expression if with any.  What closes in the one may fail to close in the other. -/
inductive Differs (types : String → Ty) (idle : Expr → Prop) : Session → Session → Prop
  | new : Differs types idle {} {}
  | both {s t : Session} {c : Command} (σ : Store) : Differs types idle s t → c.Avoids types idle →
      Differs types idle (s.exec c σ).1.2 (t.exec c σ).1.2
  | extra {s t : Session} {c : Command} {a : Answer} (σ : Store) : Differs types idle s t →
      c.Avoids types idle → c.isRequest = true → (t.exec c σ).1.1 = .ok a →
      (∀ e, a = .expr e → idle e) → Differs types idle s (t.exec c σ).1.2

section

variable {types : String → Ty} {idle : Expr → Prop}

theorem Differs.run {s t : Session} {cs : List Command} (h : Differs types idle s t)
    (hcs : ∀ c ∈ cs, c.Avoids types idle) :
    Differs types idle (cs.foldl (fun s c => (s.exec c {}).1.2) s)
      (cs.foldl (fun s c => (s.exec c {}).1.2) t) := by
  induction cs generalizing s t with
  | nil => exact h
  | cons c cs ih =>
    rw [List.forall_mem_cons] at hcs
    exact ih (h.both {} hcs.1) hcs.2

/-- Of two runs of the same commands the second makes one request in between. -/
theorem Differs.request {before later : List Command} {c : Command} {e : Expr}
    (hbefore : ∀ c ∈ before, c.Avoids types idle) (hlater : ∀ c ∈ later, c.Avoids types idle)
    (hc : c.Avoids types idle) (hreq : c.isRequest = true)
    (ha : ((after before).exec c {}).1.1 = .ok (.expr e)) (he : idle e) :
    Differs types idle (after (before ++ [] ++ later)) (after (before ++ [c] ++ later)) := by
  have hshared : Differs types idle (after before) (after before) := Differs.new.run hbefore
  have hextra := hshared.extra {} hc hreq ha (by rintro _ ⟨⟩; exact he)
  simpa only [after, List.foldl_append, List.foldl_cons, List.foldl_nil] using hextra.run hlater

end

end Session

end ClosureConversion
