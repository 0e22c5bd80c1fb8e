import ClosureConversion.Proofs.Protocol
import ClosureConversion.Proofs.Simulation
import ClosureConversion.Proofs.Verified

/-!
Variables read through a carrier.

A scope has one slot for a variable, whatever the types at which the variable is asked for, and the
slot has the type of the first request (`slot?_ofRequests`).  The carrier is filled by a read at that
type, and the body takes the value out of the carrier without looking at the type that it names.

`var_read_at_first_request`: a top scope without parameters whose body is a variable gives the value
of the variable, read at the type of the first request.  If the body names another type, then the
variable may be read although it does not have that type, and may not be read although it has:
`var_read_at_other_type`.
-/

namespace ClosureConversion

/-- The first request of a variable decides on its slot. -/
theorem Env.slot?_ofRequests (asked : List (String × Ty)) (name : String) :
    (Env.ofRequests (asked.map fun r => .var r.1 r.2)).slot? (.var name) =
      (asked.lookup name).map fun ty => ⟨.var name, ty, rootScope⟩ := by
  have main : ∀ env : Env, ((asked.map fun r => Request.var r.1 r.2).foldl Env.request env).slot?
      (.var name) = (env.slot? (.var name)).or
        ((asked.lookup name).map fun ty => ⟨.var name, ty, rootScope⟩) := by
    induction asked with
    | nil => simp
    | cons r asked ih =>
      intro env
      rw [List.map_cons, List.foldl_cons, ih, Env.slot?_request, Option.or_assoc, List.lookup_cons]
      by_cases h : r.1 = name
      · subst h
        simp [Request.toSlot]
      · have hne : (name == r.1) = false := beq_eq_false_iff_ne.mpr (Ne.symm h)
        simp [Request.toSlot, h, hne]
  exact main {}

namespace Session

/-! ## The session -/

/-- A top scope is opened, and these variables are asked for. -/
def reader (span : Span) (asked : List (String × Ty)) : List Command :=
  [.enter span, .begin] ++ asked.map fun r => .var r.1 r.2

/-- Requests in the only open scope. -/
theorem run_requests (asked : List (String × Ty)) {s : Session} {d : Draft} (hs : s.stack = [d])
    (hd : d.building = true) (σ : Store) :
    ∃ answers, s.run (asked.map fun r => .var r.1 r.2) σ = ((answers, { s with
        stack := [{ d with requested :=
          (asked.map fun r => Request.var r.1 r.2).foldl Env.request d.requested }] }), σ) ∧
      ∀ a ∈ answers, a.toBool = true := by
  induction asked generalizing s d with
  | nil =>
    refine ⟨[], ?_, nofun⟩
    rw [List.map_nil, List.map_nil, List.foldl_nil, ← hs]
    rfl
  | cons r asked ih =>
    have hb : s.building = .ok (d, []) := building_eq_ok_iff.mpr ⟨hs, hd⟩
    have hexec : s.exec (.var r.1 r.2) σ = ((.ok (.expr (.var r.1 r.2)),
        { s with stack := [d.request (.var r.1 r.2)] }), σ) := by
      simp only [exec, var, hb, hs, bind, Except.bind]
      rfl
    obtain ⟨answers, hrun, hok⟩ :=
      ih (s := { s with stack := [d.request (.var r.1 r.2)] }) rfl hd
    refine ⟨.ok (.expr (.var r.1 r.2)) :: answers, ?_, List.forall_mem_cons.mpr ⟨rfl, hok⟩⟩
    rw [List.map_cons, run_cons, hexec, hrun]
    rfl

/-- The scope that is open after the requests. -/
def asking (span : Span) (asked : List (String × Ty)) : Draft where
  id := 1
  span := span
  building := true
  requested := .ofRequests (asked.map fun r => .var r.1 r.2)

theorem run_reader (span : Span) (asked : List (String × Ty)) (σ : Store) :
    ∃ answers, run {} (reader span asked) σ =
        ((answers, { stack := [asking span asked], freshScope := 2 }), σ) ∧
      ∀ a ∈ answers, a.toBool = true := by
  obtain ⟨answers, hrun, hok⟩ := run_requests asked
    (s := { stack := [{ id := 1, span, building := true }], freshScope := 2 }) rfl rfl σ
  refine ⟨.ok (.scope 1) :: .ok .begun :: answers, ?_,
    List.forall_mem_cons.mpr ⟨rfl, List.forall_mem_cons.mpr ⟨rfl, hok⟩⟩⟩
  have henter : exec {} (.enter span) σ =
      ((.ok (.scope 1), { stack := [{ id := 1, span }], freshScope := 2 }), σ) := rfl
  have hbegin : exec { stack := [{ id := 1, span }], freshScope := 2 } .begin σ =
      ((.ok .begun, { stack := [{ id := 1, span, building := true }], freshScope := 2 }), σ) := rfl
  show run {} (.enter span :: .begin :: asked.map fun r => .var r.1 r.2) σ = _
  rw [run_cons, henter, run_cons, hbegin, hrun]
  rfl

/-- What the scope captures if its body is the variable. -/
def readEnv (name : String) (ty : Ty) : Env where
  slots := [⟨.var name, ty, rootScope⟩]
  names := SortedSet.empty.insert name

variable {span : Span} {asked : List (String × Ty)} {name : String} {ty τ : Ty}

theorem slot?_asking (span : Span) (hτ : asked.lookup name = some τ) :
    (asking span asked).requested.slot? (.var name) = some ⟨.var name, τ, rootScope⟩ := by
  rw [asking, Env.slot?_ofRequests, hτ]
  rfl

theorem uses_asking (hτ : asked.lookup name = some τ) (ty : Ty) :
    (asking span asked).uses (.var name ty) = .ok { env := readEnv name τ } := by
  unfold Draft.uses
  simp only [Term.nodes, List.foldlM_cons, List.foldlM_nil, Draft.see, Draft.grant,
    slot?_asking span hτ]
  have henv : (({} : Env).insert ⟨.var name, τ, rootScope⟩).request (.var name ty) =
      readEnv name τ := by
    simp [Env.request, Env.capture, Env.note, Env.insert, Env.place, Env.indexOf?, Request.toSlot,
      readEnv]
  exact congrArg (fun env => (Except.ok { env := env } : Except Breach BodyUse)) henv

/-- The scope as it is closed. -/
def readScope (span : Span) (name : String) (ty τ : Ty) (eager : Bool) (layout : Layout) : Scope :=
  (asking span []).toScope (.var name ty) eager
    (some ⟨readEnv name τ, layout, ⟨0, carrierName, layout.headTy, span⟩⟩)

/-- The session once the scope is closed. -/
def readSession (span : Span) (name : String) (ty τ : Ty) (eager : Bool) (layout : Layout) :
    Session where
  closed := (∅ : ScopeTable).insert 1 (readScope span name ty τ eager layout)
  roots := [1]
  freshScope := 2
  freshLocal := 1

/-- The scope is closed, and the carrier is laid out for one value of the type first asked for. -/
theorem exec_close_asking (span : Span) (hτ : asked.lookup name = some τ) (ty : Ty) (eager : Bool)
    (σ : Store) :
    ∃ layout σ', Segments 0 [τ] layout.segments ∧ σ.Grows σ' ∧
      exec { stack := [asking span asked], freshScope := 2 } (.close (.var name ty) eager) σ =
        ((.ok (.expr (.placeholder 1)), readSession span name ty τ eager layout), σ') := by
  have hne : (readEnv name τ).types ≠ [] := by simp [readEnv, Env.types]
  obtain ⟨layout, σ', hl, hsegs⟩ := Layout.ofTypes_isOk hne σ
  have hgrows := Layout.grows_ofTypes (readEnv name τ).types σ
  rw [hl] at hgrows
  refine ⟨layout, σ', hsegs, hgrows, ?_⟩
  have hreq : (asking span asked).checkRequested (readEnv name τ) = .ok () := by
    have hmem := (Env.mem_of_slot? (slot?_asking span hτ)).1
    rw [Draft.checkRequested_eq_ok_iff, Env.isSubset_iff]
    refine ⟨List.forall_mem_singleton.mpr (Env.contains_of_mem hmem), ?_⟩
    exact fun i hi => absurd hi (SortedSet.not_mem_empty i)
  have acc : Accepts { stack := [asking span asked], freshScope := 2 } (.var name ty) σ
      (asking span asked) [] { env := readEnv name τ } _ _ σ' :=
    ⟨rfl, uses_asking hτ ty, hreq, carry_of_not_empty rfl hl⟩
  have hclose : close { stack := [asking span asked], freshScope := 2 } (.var name ty) eager σ = _ :=
    (close_eq_record acc eager).trans
      (record_of_not_compiled _ (by simp [Draft.toScope, Scope.isStatic]) σ')
  rw [exec_close, hclose]
  rfl

/-! ## The result -/

/-- The plan for a scope with none within it. -/
theorem build_leaf {t : ScopeTable} {id : ScopeId} {sc : Scope} (h : t.get? id = some sc)
    (hc : sc.children = []) (u : InputUse) :
    Plan.build t id u = (.ok (.node sc []), sc.env?.elim u u.add) := by
  have hpos : 0 < t.size := by
    have hlt := Plan.rank_lt h (Nat.lt_succ_self id)
    exact Nat.lt_of_lt_of_le (Nat.zero_lt_of_lt hlt) (Plan.rank_le_size t id)
  obtain ⟨depth, hsize⟩ := Nat.exists_eq_succ_of_ne_zero (Nat.ne_of_gt hpos)
  unfold Plan.build
  rw [hsize, Plan.buildWithin_succ h, hc]
  rfl

/-- A function with this code, bound to a read of the variable. -/
def readExpr (name : String) (τ : Ty) (layout : Layout) (label : Label) (body : Expr) : Expr :=
  .bind (Layout.chain [.var name τ] layout.head layout.rest) (.code label [0] body) 0

/-- Finishing the session gives a function bound to a read of the variable at the type of its slot;
the code of the function takes the value out of the carrier. -/
theorem finalize_read {eager : Bool} {layout : Layout} {σ : Store} (hσ : σ.Valid)
    (hsegs : Segments 0 [τ] layout.segments) :
    ∃ used label body σ', layout.access 0 (.loc 0) = .ok body ∧
      (readSession span name ty τ eager layout).finalize σ =
        (.ok ⟨.residual (readExpr name τ layout label body), used⟩, σ') := by
  let sc := readScope span name ty τ eager layout
  have hsc : (readSession span name ty τ eager layout).closed.get? 1 = some sc := by
    rw [readSession, ScopeTable.get?_insert, if_pos rfl]
  obtain ⟨body, hbody⟩ := Layout.access_isOk hsegs (Nat.zero_lt_one) (.loc 0)
  have hfetch : sc.Fetches (.var name) body :=
    ⟨_, 0, rfl, by simp [readEnv, Env.indexOf?], hbody⟩
  have hresolve : Plan.resolveBody sc.carried (([] : List (ScopeId × Expr)).reverse.lookup ·)
      sc.body = .ok body :=
    Term.replaceM_of_some (Plan.resolveNode_of_fetches sc _ rfl hfetch)
  have hfit : sc.Fits := Nat.zero_le _
  obtain ⟨e, code, σ', hfinish, hst, hfin⟩ := Plan.finish_isOk hfit
    (fun c hc => by cases hc; exact hsegs)
    (fun c hc => by
      cases hc
      exact List.forall_mem_singleton.mpr ⟨_, Frame.Gives.var rfl⟩) hσ hfetch.verify
  -- what stands for the scope at the top
  have hform : ∃ label, e = readExpr name τ layout label body := by
    rcases hfin.form with ⟨label, rfl⟩ | ⟨hnone, -⟩
    · cases hst with
      | function hc => cases hc
      | bind hc hg =>
        cases hc
        cases hg with
        | cons hx hrest =>
          cases hrest
          cases hx with
          | var hv =>
            cases hv
            exact ⟨label, rfl⟩
          | args hv => cases hv
    · cases hnone
  obtain ⟨label, rfl⟩ := hform
  have hconv : (Plan.node sc []).convert .root σ =
      (.ok (readExpr name τ layout label body), σ') := by
    unfold Plan.convert Plan.convertAll
    rw [pure_bind, hresolve]
    exact hfinish
  refine ⟨sc.env?.elim {} (InputUse.add {}), label, body, σ', hbody, ?_⟩
  rw [finalize_eq rfl rfl, build_leaf hsc rfl]
  have hroot : convertRoot (readSession span name ty τ eager layout).closed 1 (.node sc []) σ =
      (.ok (.residual (readExpr name τ layout label body)), σ') := by
    unfold convertRoot
    rw [hsc]
    exact Outcome.bind_ok hconv
  have hplan : ConvertM.ofExcept (.ok (Plan.node sc [])) σ = (.ok (Plan.node sc []), σ) := rfl
  rw [Outcome.bind_ok hplan, Outcome.bind_ok hroot]
  rfl

/-- A read of a variable changes nothing, and gives a value of the type that it names. -/
theorem evaluate_var {depth : Nat} {inputs : Inputs} {name : String} {ty : Ty} {σ σ' : Store}
    {v : Value} (h : (Term.var name ty : Expr).evaluate depth inputs σ = (.ok v, σ')) :
    v.conforms ty = true ∧ σ' = σ := by
  rw [Term.evaluate_run] at h
  change (Term.var name ty : Expr).eval (Closure.invoke depth) ⟨[], some inputs⟩ σ = _ at h
  have hget : Context.getInputs ⟨[], some inputs⟩ σ = (.ok inputs, σ) := rfl
  unfold Term.eval at h
  rw [Outcome.bind_ok hget] at h
  cases hl : inputs.named.lookup name with
  | none =>
    rw [hl] at h
    cases h
  | some w =>
    rw [hl] at h
    dsimp only at h
    unfold Datum.checked at h
    split at h
    · next hw =>
      cases h
      exact ⟨hw, rfl⟩
    · cases h

section

variable {layout : Layout} {label : Label} {body : Expr} (hsegs : Segments 0 [τ] layout.segments)

include hsegs

/-- The function gives the value that its carrier was made with. -/
theorem invoke_read (hbody : layout.access 0 (.loc 0) = .ok body) {v first : Value} {label' : Label}
    (hst : Stores layout.segments [v] first) (depth : Nat) (σ : Store) :
    Closure.invoke (depth + 1) (.bound label' 0 first (.code label [0] body)) [] σ = (.ok v, σ) := by
  have hloc : Yields (Closure.invoke depth) ⟨[(0, first)], none⟩ (.loc 0) first := yields_loc rfl
  have hread : ([v] : List Value)[0]? = some v := rfl
  exact yields_access hsegs hst rfl hloc hbody hread σ

/-- The variable is read first, at the type of its slot. -/
theorem evaluate_read (depth : Nat) (inputs : Inputs) (σ : Store) :
    (readExpr name τ layout label body).evaluate depth inputs σ =
      ((Term.var name τ : Expr).evaluate depth inputs >>= fun v =>
        Layout.build [v] layout.head layout.rest >>= fun first =>
        .function <$> ExceptT.adapt .fault ((Closure.code label [0] body).bind 0 first)) σ := by
  have hverify : (readExpr name τ layout label body).verify σ.isCompiled [] true = .ok () := by
    unfold readExpr Term.verify
    exact Layout.verify_chain _ _ _ hsegs rfl (List.forall_mem_singleton.mpr rfl)
  have hvar : (Term.var name τ : Expr).evaluate depth inputs σ =
      (Term.var name τ : Expr).eval (Closure.invoke depth) ⟨[], some inputs⟩ σ :=
    Term.evaluate_run ..
  rw [Term.evaluate_run, hverify]
  show (readExpr name τ layout label body).eval (Closure.invoke depth) ⟨[], some inputs⟩ σ = _
  unfold readExpr Term.eval
  refine (Outcome.bind_congr (eval_chain_eq hsegs rfl σ) fun _ _ _ => rfl).trans ?_
  unfold Term.evalAll Term.evalAll
  simp only [bind_assoc, pure_bind]
  exact Outcome.bind_congr hvar.symm fun _ _ _ => rfl

/-- If the variable can be read at the type of its slot then the function exists and gives its
value. -/
theorem instantiate_read_ok (hbody : layout.access 0 (.loc 0) = .ok body) {depth : Nat}
    {inputs : Inputs} {σ σ' : Store} {v : Value}
    (h : (Term.var name τ : Expr).evaluate depth inputs σ = (.ok v, σ')) :
    ∃ f σ₁, (Conversion.residual (readExpr name τ layout label body)).instantiate depth inputs σ =
        (.ok f, σ₁) ∧
      ∀ depth σ, f.invoke (depth + 1) [] σ = (.ok v, σ) := by
  have hfields : Datum.checkFields [v] [τ] = .ok () := by
    simp [Datum.checkFields, Datum.checked, (evaluate_var h).1, bind, Except.bind]
  have hbuilds : Builds layout.segments [v] [τ] σ' _ := builds_build hsegs rfl σ'
  generalize hb : Layout.build [v] layout.head layout.rest σ' = o at hbuilds
  cases hbuilds with
  | error hk _ =>
    have hone : ∀ {α : Type} (a : α), checkOrder [a] = [a] := fun a =>
      checkOrder_of_le (Nat.succ_le_succ (Nat.zero_le 7))
    rw [hone, hone, hfields] at hk
    cases hk
  | @ok first σ₁ _ hst _ =>
    have heval : (readExpr name τ layout label body).evaluate depth inputs σ =
        (.ok (.function (.bound σ₁.nextLabel 0 first (.code label [0] body))),
          { σ₁ with nextLabel := σ₁.nextLabel + 1 }) := by
      rw [evaluate_read hsegs, Outcome.bind_ok h, Outcome.bind_ok hb, Outcome.map_eq,
        Outcome.adapt_eq, Closure.bind_run]
      rfl
    exact ⟨_, _, Outcome.bind_ok heval, invoke_read hsegs hbody hst⟩

/-- If the variable cannot be read at the type of its slot then there is no function, for the same
reason. -/
theorem instantiate_read_error {depth : Nat} {inputs : Inputs} {σ σ' : Store} {e : Halt}
    (h : (Term.var name τ : Expr).evaluate depth inputs σ = (.error e, σ')) :
    (Conversion.residual (readExpr name τ layout label body)).instantiate depth inputs σ =
      (.error e, σ') := by
  have heval : (readExpr name τ layout label body).evaluate depth inputs σ = (.error e, σ') := by
    rw [evaluate_read hsegs, Outcome.bind_error h]
  exact Outcome.bind_error heval

end

/-- A top scope without parameters whose body is a variable that it asked for can be closed, and the
session finished.  The function reads the variable at the type of the first request, whatever type
the body names. -/
theorem var_read_at_first_request {σ : Store} (hσ : σ.Valid) (span : Span)
    {asked : List (String × Ty)} {name : String} {ty : Ty} (hr : (name, ty) ∈ asked) (eager : Bool) :
    let ran := run {} (reader span asked ++ [.close (.var name ty) eager]) σ
    (∀ a ∈ ran.1.1, a.toBool = true) ∧
    ∃ τ, asked.lookup name = some τ ∧
    ∃ fin σ', ran.1.2.finalize ran.2 = (.ok fin, σ') ∧
    ∀ depth inputs σ,
      (∀ v σ', (Term.var name τ : Expr).evaluate depth inputs σ = (.ok v, σ') →
        v.conforms τ = true ∧ ∃ f σ₁, fin.result.instantiate depth inputs σ = (.ok f, σ₁) ∧
          ∀ depth σ, f.invoke (depth + 1) [] σ = (.ok v, σ)) ∧
      ∀ e σ', (Term.var name τ : Expr).evaluate depth inputs σ = (.error e, σ') →
        fin.result.instantiate depth inputs σ = (.error e, σ') := by
  obtain ⟨τ, hτ⟩ : ∃ τ, asked.lookup name = some τ := by
    cases hl : asked.lookup name with
    | some τ => exact ⟨τ, rfl⟩
    | none => simpa using List.lookup_eq_none_iff.mp hl _ hr
  obtain ⟨answers, hasked, hok⟩ := run_reader span asked σ
  obtain ⟨layout, σ₁, hsegs, hgrows, hclose⟩ := exec_close_asking span hτ ty eager σ
  have hrun : run {} (reader span asked ++ [.close (.var name ty) eager]) σ =
      ((answers ++ [.ok (.expr (.placeholder 1))], readSession span name ty τ eager layout),
        σ₁) := by
    rw [run_append, hasked, run_cons, hclose]
    rfl
  obtain ⟨used, label, body, σ₂, hbody, hfin⟩ := finalize_read (hgrows.valid hσ) hsegs
  rw [hrun]
  refine ⟨List.forall_mem_append.mpr ⟨hok, List.forall_mem_singleton.mpr rfl⟩, τ, hτ, _, σ₂, hfin,
    fun depth inputs σ => ⟨fun v σ' h => ?_, fun e σ' h => ?_⟩⟩
  · exact ⟨(evaluate_var h).1, instantiate_read_ok hsegs hbody h⟩
  · exact instantiate_read_error hsegs h

/-- One variable, asked for at two types. -/
def askedTwice : List (String × Ty) := [("x", .int), ("x", .string)]

/-- The function for the body that names the second type, when the variable is this value. -/
def readOf (fin : Finished) (v : Value) : EvalM Value := do
  let f ← fin.result.instantiate 1 ⟨[], [("x", v)]⟩
  f.invoke 1 []

/-- The text that the body names the type of is read directly and not by the function, and the number
by the function only. -/
def readsOtherwise : Except ConversionError Finished × Store → Bool
  | (.ok fin, σ) =>
    (((Term.var "x" .string : Expr).evaluate 1 ⟨[], [("x", .string "a")]⟩ σ).1.toBool &&
      !(readOf fin (.string "a") σ).1.toBool) &&
    (!((Term.var "x" .string : Expr).evaluate 1 ⟨[], [("x", .int 5)]⟩ σ).1.toBool &&
      (readOf fin (.int 5) σ).1.toOption.bind Datum.int? == some 5)
  | _ => false

/-- A number is read, although the body names the type of texts. -/
theorem var_read_at_first_request_twice :
    let ran := run {} (reader .dummy askedTwice ++ [.close (.var "x" .string) false]) {}
    ∃ fin σ', ran.1.2.finalize ran.2 = (.ok fin, σ') ∧
      ∃ f σ₁, fin.result.instantiate 1 ⟨[], [("x", .int 5)]⟩ σ' = (.ok f, σ₁) ∧
        ∀ depth σ, f.invoke (depth + 1) [] σ = (.ok (.int 5), σ) := by
  obtain ⟨-, τ, hτ, fin, σ', hfin, h⟩ :=
    var_read_at_first_request (show Store.Valid {} from nofun) .dummy
      (show ("x", Ty.string) ∈ askedTwice by decide) false
  obtain rfl : Ty.int = τ := Option.some.inj hτ
  have hread : (Term.var "x" .int : Expr).evaluate 1 ⟨[], [("x", .int 5)]⟩ σ' =
      (.ok (.int 5), σ') := rfl
  exact ⟨fin, σ', hfin, ((h _ _ _).1 _ _ hread).2⟩

/-- The body names the type of texts, but a text is not read and a number is: the other way round
than in a direct read. -/
theorem var_read_at_other_type :
    let ran := run {} (reader .dummy askedTwice ++ [.close (.var "x" .string) false]) {}
    ∃ fin σ, ran.1.2.finalize ran.2 = (.ok fin, σ) ∧
      (((Term.var "x" .string : Expr).evaluate 1 ⟨[], [("x", .string "a")]⟩ σ).1.toBool = true ∧
        (readOf fin (.string "a") σ).1.toBool = false) ∧
      ((Term.var "x" .string : Expr).evaluate 1 ⟨[], [("x", .int 5)]⟩ σ).1.toBool = false ∧
        (readOf fin (.int 5) σ).1.toOption.bind Datum.int? = some 5 := by
  intro ran
  -- one evaluation, from which all parts are read off
  have test : readsOtherwise (ran.1.2.finalize ran.2) = true := by decide +kernel
  unfold readsOtherwise at test
  split at test
  · next fin σ h =>
    simp only [Bool.and_eq_true, Bool.not_eq_true', beq_iff_eq] at test
    exact ⟨fin, σ, h, test⟩
  · cases test

end Session

end ClosureConversion
