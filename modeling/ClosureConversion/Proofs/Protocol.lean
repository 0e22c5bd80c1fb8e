import ClosureConversion.Proofs.Conversion

/-!
A front end that keeps to the protocol meets no internal error.

Along a run, every compiled scope has an image, and no image is of a scope that may still be
converted: `Session.Imaged`, kept by every command (`Imaged.step`).

`fails_only_on_arity`: closing a scope with a body over what it was given, and finishing a session
with one top scope, fail only because a lambda declares too many parameters; and finishing fails iff
such a lambda is reached from the top scope through tokens.
-/

namespace ClosureConversion

/-! ## The store while a scope is closed -/

namespace Layout

theorem link_store (start : Nat) (lens : List Nat) (types : List Ty) (σ : Store) :
    (link start lens types σ).2.nextLabel = σ.nextLabel ∧
      (link start lens types σ).2.functions = σ.functions := by
  induction lens generalizing start types with
  | nil => exact ⟨rfl, rfl⟩
  | cons len lens ih =>
    have hrest := ih (start + len) (types.drop len)
    cases h : link (start + len) lens (types.drop len) σ with
    | mk rest σ' =>
      rw [h] at hrest
      rw [link_cons h]
      exact hrest

theorem grows_ofTypes (types : List Ty) (σ : Store) : σ.Grows (ofTypes types σ).2 := by
  have hs := link_store 0 (segmentLengths types.length) types σ
  cases h : link 0 (segmentLengths types.length) types σ with
  | mk segs σ' =>
    rw [h] at hs
    cases segs with
    | cons head rest =>
      rw [ofTypes_of_link h]
      exact .labels (Nat.le_of_eq hs.1.symm) hs.2
    | nil =>
      by_cases hne : types = []
      · rw [hne, ofTypes_nil]
        exact .refl σ
      · have := segments_link 0 hne σ
        rw [h] at this
        cases this

end Layout

namespace Session

theorem carry_of_not_empty {env : Env} (he : env.isEmpty = false) {span : Span} {fresh : LocalId}
    {l : Layout} {σ σ' : Store} (hl : Layout.ofTypes env.types σ = (.ok l, σ')) :
    carry env span fresh σ = (.ok (some ⟨env, l, ⟨fresh, carrierName, l.headTy, span⟩⟩, fresh + 1),
      σ') := by
  unfold carry
  rw [he]
  exact Outcome.bind_ok hl

/-- Every environment can be carried. -/
theorem carry_isOk (env : Env) (span : Span) (fresh : LocalId) (σ : Store) :
    ∃ r σ', carry env span fresh σ = (.ok r, σ') ∧ σ.Grows σ' := by
  cases he : env.isEmpty with
  | true =>
    refine ⟨(none, fresh), σ, ?_, .refl σ⟩
    unfold carry
    rw [he]
    rfl
  | false =>
    have hne : env.types ≠ [] := by
      intro h
      rw [Env.types, List.map_eq_nil_iff] at h
      simp [Env.isEmpty, h] at he
    obtain ⟨l, σ', hl, -⟩ := Layout.ofTypes_isOk hne σ
    refine ⟨_, σ', carry_of_not_empty he hl, ?_⟩
    have := Layout.grows_ofTypes env.types σ
    rwa [hl] at this

end Session

/-! ## Images along a run -/

section

variable {vars : String → Ty → Prop} {t t' : ScopeTable} {around around' : ScopeId → List ScopeId}
  {E : Images} {σ : Store}

theorem Emitted.table (h : Emitted vars t E σ)
    (kept : ∀ id sc, t.get? id = some sc → ∃ alive, t'.get? id = some { sc with alive := alive })
    (old : ∀ id sc f, t'.get? id = some sc → sc.compiled = some f →
      ∃ sc', t.get? id = some sc' ∧ sc'.compiled = some f) : Emitted vars t' E σ where
  sound := h.sound
  scope id im hid := by
    obtain ⟨sc, alive, compiled, hsc, he⟩ := h.scope id im hid
    obtain ⟨alive', hsc'⟩ := kept id sc hsc
    exact ⟨_, alive, compiled, hsc', he⟩
  compiled id sc f hsc hf := by
    obtain ⟨sc', hsc', hf'⟩ := old id sc f hsc hf
    exact h.compiled id sc' f hsc' hf'
  below := h.below
  inj := h.inj
  lazy := h.lazy
  valid := h.valid

theorem Raw.of_kept {id : ScopeId} (h : Raw t' around' id) (ha : around' id = around id)
    (kept : ∀ id sc, t.get? id = some sc → ∃ alive, t'.get? id = some { sc with alive := alive }) :
    Raw t around id := by
  intro z hz sc hsc
  obtain ⟨alive, hsc'⟩ := kept z sc hsc
  have hnone := h z (ha ▸ hz) _ hsc'
  exact hnone

end

namespace Session

/-- The compiled scopes have images, and no image is of a scope that may still be converted. -/
structure Imaged (vars : String → Ty → Prop) (around : ScopeId → List ScopeId) (E : Images)
    (s : Session) (σ : Store) : Prop where
  emitted : Emitted vars s.closed E σ
  done : ∀ id im, E id = some im → ¬ Raw s.closed around id

variable {vars : String → Ty → Prop} {offers : List (ScopeId × Expr)}
  {around around' : ScopeId → List ScopeId} {decl : LocalId → Option (ScopeId × Ty)}
  {s s' : Session} {E : Images} {σ σ' : Store}

theorem Imaged.clear (h : s.Imaged vars around E σ) (id : ScopeId) :
    Clear s.closed around E id := by
  intro y _ hraw
  cases hy : E y with
  | none => rfl
  | some im => exact absurd hraw (h.done y im hy)

/-- The images stay when nothing is compiled. -/
theorem Imaged.keep (h : s.Imaged vars around E σ) (hn : s.Nested around) (g : σ.Grows σ')
    (ha : ∀ id, id < s.freshScope → around' id = around id)
    (kept : ∀ id sc, s.closed.get? id = some sc →
      ∃ alive, s'.closed.get? id = some { sc with alive := alive })
    (old : ∀ id sc f, s'.closed.get? id = some sc → sc.compiled = some f →
      ∃ sc', s.closed.get? id = some sc' ∧ sc'.compiled = some f) : s'.Imaged vars around' E σ' where
  emitted := (h.emitted.grows g).table kept old
  done id im hid hraw := by
    obtain ⟨sc, -, -, hsc, -⟩ := h.emitted.scope id im hid
    exact h.done id im hid (hraw.of_kept (ha id (hn.closed id sc hsc).2.2) kept)

/-! ## Closing a scope -/

section

variable {d : Draft} {outer : List Draft} {body : Expr}

/-- A scope admits every node of what it was offered. -/
theorem admits_of_offered {t : ScopeTable} {e n : Expr}
    (h : Offered vars t d.params d.requested d.children e) (hn : n ∈ e.nodes) : d.Admits n := by
  have leaf : e.children = [] → n = e := by
    intro hc
    rcases (Term.mem_nodes e n).mp hn with rfl | ⟨a, ha, -⟩
    · rfl
    · rw [hc] at ha
      cases ha
  cases h with
  | @own p hp =>
    obtain rfl := leaf rfl
    exact ⟨by rintro v ⟨⟩; exact .inl ⟨p, hp, rfl⟩, by rintro c ⟨⟩⟩
  | captured hv =>
    obtain rfl := leaf rfl
    exact ⟨by rintro v ⟨⟩; exact .inr hv, by rintro c ⟨⟩⟩
  | argument hv _ =>
    simp only [Term.nodes, List.mem_cons, List.not_mem_nil, or_false] at hn
    rcases hn with rfl | rfl
    · exact ⟨by rintro v ⟨⟩, by rintro c ⟨⟩⟩
    · exact ⟨by rintro v ⟨⟩; exact .inr hv, by rintro c ⟨⟩⟩
  | var hv _ =>
    obtain rfl := leaf rfl
    exact ⟨by rintro v ⟨⟩; exact .inr hv, by rintro c ⟨⟩⟩
  | deferred hc _ _ =>
    obtain rfl := leaf rfl
    exact ⟨by rintro v ⟨⟩, by rintro c ⟨⟩; exact hc⟩
  | compiled hc _ _ =>
    obtain rfl := leaf rfl
    exact ⟨by rintro v ⟨⟩, by rintro c ⟨⟩; exact hc⟩

/-- Only an entry of the argument vector that was offered reads an index. -/
theorem index_of_offered {t : ScopeTable} {e : Expr} {i : Nat} {ty : Ty}
    (h : Offered vars t d.params d.requested d.children e) (hn : .arg .args i ty ∈ e.nodes) :
    i ∈ d.requested.indices := by
  cases h with
  | argument _ hi =>
    simp only [Term.nodes, List.mem_cons, List.not_mem_nil, or_false, Term.arg.injEq,
      reduceCtorEq] at hn
    obtain ⟨-, rfl, -⟩ := hn
    exact hi
  | _ => simp [Term.nodes] at hn

variable (hk : s.Known vars offers around decl) (hs : s.stack = d :: outer)
  (hb : FrontBody (fun e => (d.id, e) ∈ offers) body)

include hk hs hb

theorem uses_of_frontBody : ∃ u, d.uses body = .ok u := by
  rw [Draft.uses_isOk_iff]
  intro n hn
  rcases hb.mem_nodes hn with hp | ⟨e, he, -, hn⟩
  · exact ⟨by simp [Term.capture?_of_isPlain hp], by simp [Term.scopeToken?_of_isPlain hp]⟩
  · exact admits_of_offered (hk.supplied.offered d (hs ▸ List.mem_cons_self) e he) hn

theorem requested_of_frontBody {u : BodyUse} (hu : d.uses body = .ok u) :
    d.checkRequested (d.gather s.closed u) = .ok () := by
  have hmem : d ∈ s.stack := hs ▸ List.mem_cons_self
  rw [Draft.checkRequested_eq_ok_iff,
    Draft.isSubset_gather_iff (hk.covered.children d hmem) hu]
  rintro i ⟨ty, hn⟩
  rcases hb.mem_nodes hn with hp | ⟨e, he, -, hn⟩
  · cases hp
  · exact index_of_offered (hk.supplied.offered d hmem e he) hn

end

/-- How compiling a scope on its own ends. -/
inductive Compiling (vars : String → Ty → Prop) (t : ScopeTable) (around : ScopeId → List ScopeId)
    (id : ScopeId) (sc : Scope) (E : Images) (σ : Store) :
    Except ConversionError (Option Closure) × Store → Prop
  | done {f : Closure} {im : Image} {E' : Images} {σ' : Store} :
      Extends t around [id] E E' → Emitted vars t E' σ' → E' id = some im →
      im.scope = sc → im.code = .function f →
      Compiling vars t around id sc E σ (.ok (some f), σ')
  | failed {count limit : Nat} {span : Span} {σ' : Store} :
      σ.Grows σ' → Overflows t id →
      Compiling vars t around id sc E σ (.error (.tooManyParams count limit span), σ')

theorem compiling_compileAlone (hk : s.Known vars offers around decl)
    (hi : s.Imaged vars around E σ) {id : ScopeId} {sc : Scope}
    (hc : Convertible s.closed around .root id sc) (hstatic : sc.carried = none)
    (heager : sc.eager = true) :
    Compiling vars s.closed around id sc E σ (compileAlone s.closed id σ) := by
  obtain ⟨p, u, hbuild, -, hconv⟩ := build_converts hk hc.get? {}
  have hres := hconv .root sc E σ hc hi.emitted (hi.clear id)
  unfold compileAlone
  have hplan : (ConvertM.ofExcept ((Plan.build s.closed id).run {}).1) σ = (.ok p, σ) := by
    unfold ExceptT.run
    rw [hbuild]
    rfl
  rw [Outcome.bind_ok hplan]
  cases hp : p.convert .root σ with
  | mk r σ₁ =>
    rw [hp] at hres
    cases hres with
    | failed hg ho =>
      rw [Outcome.bind_error hp]
      exact .failed hg ho
    | @done e im E' _ hext he _ hE hsc hst hf =>
      rw [Outcome.bind_ok hp]
      obtain ⟨f, hcode⟩ := hf heager
      obtain ⟨x, code⟩ := im
      obtain rfl : x = sc := hsc
      obtain rfl : code = .function f := hcode
      cases hst with
      | function _ => exact .done hext he hE rfl rfl
      | bind hcar _ =>
        rw [hstatic] at hcar
        cases hcar

section

variable {d : Draft} {outer : List Draft} {u : BodyUse} {sc : Scope}

/-- A recorded scope that captures nothing may be converted on its own: the scopes around it are
open. -/
theorem convertible_record (hk : s.Known vars offers around decl) (r : s.Records d outer u sc s')
    (hnone : sc.compiled = none) (hstatic : sc.carried = none) :
    Convertible s'.closed around .root d.id sc where
  get? := r.get?_self
  alive := r.alive
  raw z hz x hx := by
    rcases List.mem_cons.mp hz with rfl | hz
    · obtain rfl := Option.some.inj (r.get?_self.symm.trans hx)
      exact hnone
    · have hf := hk.nested.of_cons r.stack_eq
      rw [hf.nests.1] at hz
      obtain ⟨o, ho, rfl⟩ := List.mem_map.mp hz
      have hn' := (hk.nested.records r).opened o
      unfold outline at hn'
      rw [r.stack] at hn'
      rw [(hn' ho).2.2] at hx
      cases hx
  gives c hc := by
    rw [hstatic] at hc
    cases hc

theorem Imaged.records (h : s.Imaged vars around E σ) (hk : s.Known vars offers around decl)
    (r : s.Records d outer u sc s') (hnone : sc.compiled = none) (g : σ.Grows σ') :
    s'.Imaged vars around E σ' := by
  refine h.keep hk.nested g (fun _ _ => rfl) (fun _ _ => kept_of_effect hk.nested (.abandon r)) ?_
  intro id x f hx hf
  rcases r.closed_cases hx with ⟨-, rfl⟩ | ⟨-, old, ho, e⟩
  · rw [hnone] at hf
    cases hf
  · rw [e] at hf
    exact ⟨old, ho, hf⟩

end

/-- The scope is compiled: the new images are all of scopes below it. -/
theorem Imaged.compile (h : s.Imaged vars around E σ) (sc : Scope) {E' : Images} {im : Image}
    {f : Closure}
    (hext : Extends s.closed around [sc.id] E E') (he : Emitted vars s.closed E' σ')
    (hsc : s.closed.get? sc.id = some sc) (hnone : sc.compiled = none) (hE : E' sc.id = some im)
    (hstatic : im.scope.carried = none) (hf : im.code = .function f) :
    (s.put { sc with compiled := some f }).Imaged vars around E' σ' := by
  have hget : ∀ k, (s.put { sc with compiled := some f }).closed.get? k =
      if sc.id = k then some { sc with compiled := some f } else s.closed.get? k :=
    fun k => ScopeTable.get?_insert _ _ k _
  have raw_of : ∀ {y}, Raw (s.put { sc with compiled := some f }).closed around y →
      Raw s.closed around y := by
    intro y hraw z hz x hx
    by_cases hid : sc.id = z
    · subst hid
      obtain rfl := Option.some.inj (hsc.symm.trans hx)
      exact hnone
    · refine hraw z hz x ?_
      rw [hget, if_neg hid, hx]
  constructor
  case emitted =>
    constructor
    case sound => exact he.sound
    case scope =>
      intro id im hid
      obtain ⟨x, alive, compiled, hx, e⟩ := he.scope id im hid
      rw [hget]
      split
      · next e' =>
        subst e'
        obtain rfl := Option.some.inj (hsc.symm.trans hx)
        exact ⟨_, alive, compiled, rfl, e⟩
      · exact ⟨x, alive, compiled, hx, e⟩
    case compiled =>
      intro id x g hx hg
      rw [hget] at hx
      split at hx
      · next e =>
        subst e
        obtain rfl := Option.some.inj hx
        obtain rfl := Option.some.inj hg
        exact ⟨im, hE, hstatic, hf⟩
      · exact he.compiled id x g hx hg
    case below => exact he.below
    case inj => exact he.inj
    case lazy => exact he.lazy
    case valid => exact he.valid
  case done =>
    intro y im' hy hraw
    cases hold : E y with
    | some old => exact h.done y old hold (raw_of hraw)
    | none =>
      obtain ⟨-, c, hc, hb⟩ := hext.fresh y im' hold hy
      obtain rfl := List.mem_singleton.mp hc
      have hmem : sc.id ∈ y :: around y := hb.subset List.mem_cons_self
      have hcomp := hraw sc.id hmem { sc with compiled := some f } (by rw [hget, if_pos rfl])
      cases hcomp

/-- Every command leaves images as they should be. -/
theorem Imaged.step {c : Command} {a : Except ConversionError Answer}
    (h : s.Imaged vars around E σ) (hk : s.Known vars offers around decl)
    (hs : s.Step σ c a s' σ') (ho : s.Obeys vars offers c) :
    ∃ E', s'.Imaged vars around E' σ' := by
  have same : s'.closed = s.closed → σ.Grows σ' → s'.Imaged vars around E σ' := by
    intro hc g
    refine h.keep hk.nested g (fun _ _ => rfl) (fun id sc hsc => ⟨sc.alive, hc ▸ hsc⟩) ?_
    intro id sc f hsc hf
    exact ⟨sc, hc ▸ hsc, hf⟩
  have pruned : ∀ {d outer u}, s' = s.pruned d outer u → σ.Grows σ' →
      s'.Imaged vars around E σ' := by
    rintro d outer u rfl g
    refine h.keep hk.nested g (fun _ _ => rfl)
      (fun id sc hsc => ScopeTable.get?_retireAll_of_get? _ hsc) ?_
    intro id sc f hsc hf
    obtain ⟨old, hold, e⟩ := ScopeTable.get?_of_retireAll hsc
    rw [e] at hf
    exact ⟨old, hold, hf⟩
  have carried : ∀ {env span fresh r σ₁}, (carry env span fresh).run σ = (r, σ₁) → σ.Grows σ₁ := by
    intro env span fresh r σ₁ hc
    obtain ⟨r', σ', hc', g⟩ := carry_isOk env span fresh σ
    obtain ⟨-, rfl⟩ := Prod.mk.inj (hc'.symm.trans hc)
    exact g
  cases hs with
  | @closed body eager _ _ _ hs =>
    cases hs with
    | refused _ => exact ⟨E, same rfl (.refl σ)⟩
    | rejected _ _ => exact ⟨E, same rfl (.refl σ)⟩
    | unrequested _ _ _ => exact ⟨E, pruned rfl (.refl σ)⟩
    | uncarried _ _ _ hc => exact ⟨E, pruned rfl (carried hc)⟩
    | deferred acc _ =>
      have hi := h.records hk (acc.records eager) rfl (carried acc.carry)
      exact ⟨E, by rw [closed_attach]; exact hi.emitted, by rw [closed_attach]; exact hi.done⟩
    | @uncompiled d outer u fresh e σ₁ _ acc he hrun =>
      subst he
      have r := acc.records true
      have hb := ho d (by rw [r.stack_eq]; rfl)
      have hi := h.records hk r rfl (carried acc.carry)
      have hres := compiling_compileAlone (hk.records r hb) hi (convertible_record hk r rfl rfl) rfl
        rfl
      have hrun : compileAlone _ d.id σ₁ = _ := hrun
      rw [hrun] at hres
      cases hres with
      | failed g _ => exact ⟨E, h.records hk r rfl ((carried acc.carry).trans g)⟩
    | @compiled d outer u fresh f σ₁ _ acc he hrun =>
      subst he
      have r := acc.records true
      have hb := ho d (by rw [r.stack_eq]; rfl)
      have hi := h.records hk r rfl (carried acc.carry)
      have hres := compiling_compileAlone (hk.records r hb) hi (convertible_record hk r rfl rfl) rfl
        rfl
      have hrun : compileAlone _ d.id σ₁ = _ := hrun
      rw [hrun] at hres
      cases hres with
      | @done f im E' _ hext he hE hsc hf =>
        have hc := hi.compile (d.toScope body true none) hext he r.get?_self rfl hE
          (by rw [hsc]; rfl) hf
        exact ⟨E', by rw [closed_attach]; exact hc.emitted, by rw [closed_attach]; exact hc.done⟩
  | _ => exact ⟨E, same rfl (.refl σ)⟩

theorem Imaged.new (hσ : σ.Valid) : Imaged vars around (fun _ => none) {} σ where
  emitted :=
    { sound := fun _ _ h => nomatch h
      scope := fun _ _ h => nomatch h
      compiled := by simp
      below := fun _ _ h => nomatch h
      inj := fun _ _ _ _ h => nomatch h
      lazy := fun _ _ _ _ h => nomatch h
      valid := hσ }
  done _ _ h := nomatch h

/-- A scope that is closed after a command existed before. -/
theorem lt_freshScope_of_step (hn : s.Nested around) {c : Command}
    {a : Except ConversionError Answer} (hs : s.Step σ c a s' σ') {id : ScopeId} {sc : Scope}
    (h : s'.closed.get? id = some sc) : id < s.freshScope := by
  rcases closed_of_step hs with hold | ⟨d, outer, u, x, s₁, eager, -, r, hcl⟩
  · obtain ⟨old, hget, -⟩ := hold id sc h
    exact (hn.closed id old hget).2.2
  · rw [hcl] at h
    rcases r.closed_cases h with ⟨rfl, -⟩ | ⟨-, old, hget, -⟩
    · exact ((hn.of_cons r.stack_eq).opened _ List.mem_cons_self).2.1
    · exact (hn.closed id old hget).2.2

theorem FrontEnd.imaged (h : FrontEnd vars s σ offers) :
    ∃ around decl E, s.Known vars offers around decl ∧ s.Imaged vars around E σ := by
  induction h with
  | new hσ => exact ⟨_, _, _, ⟨nested_new, .new, .new, .new, .new, .new, .new⟩, .new hσ⟩
  | @exec s σ offers c _ ho ih =>
    obtain ⟨around, decl, E, hk, hi⟩ := ih
    have hs := step_exec s c σ
    obtain ⟨around', decl', hk', ha⟩ := hk.step hs ho
    obtain ⟨E', hi'⟩ := hi.step hk hs ho
    refine ⟨around', decl', E', hk', hi'.emitted, fun id im hid hraw => hi'.done id im hid ?_⟩
    obtain ⟨sc, -, -, hsc, -⟩ := hi'.emitted.scope id im hid
    refine hraw.of_kept (ha id (lt_freshScope_of_step hk.nested hs hsc)) fun id sc hsc => ?_
    exact ⟨sc.alive, hsc⟩

/-- Closing a scope with a body over what it was given fails only if a lambda does not fit. -/
theorem close_error (hk : s.Known vars offers around decl) (hi : s.Imaged vars around E σ)
    {d : Draft} {outer : List Draft} {body : Expr} {eager : Bool} {e : ConversionError}
    (hb : s.building = .ok (d, outer)) (hbody : FrontBody (fun x => (d.id, x) ∈ offers) body)
    (he : (s.close body eager σ).1.1 = .error e) :
    ∃ count limit span, e = .tooManyParams count limit span := by
  have hclose := closing_close s body eager σ
  rw [he] at hclose
  generalize (s.close body eager σ).1.2 = s', (s.close body eager σ).2 = σ' at hclose
  have hst := (building_eq_ok_iff.mp hb).1
  have top : ∀ {d' outer'}, s.building = .ok (d', outer') → d' = d := by
    intro d' outer' hb'
    rw [hb] at hb'
    cases hb'
    rfl
  cases hclose with
  | refused h =>
    rw [hb] at h
    cases h
  | rejected hb' h =>
    obtain rfl := top hb'
    obtain ⟨u, hu⟩ := uses_of_frontBody hk hst hbody
    rw [hu] at h
    cases h
  | unrequested hb' hu h =>
    obtain rfl := top hb'
    rw [requested_of_frontBody hk hst hbody hu] at h
    cases h
  | @uncarried d' _ u b σ' hb' hu _ h =>
    obtain ⟨r, σ₁, hc, -⟩ := carry_isOk (d'.gather s.closed u) d'.span s.freshLocal σ
    have h : carry _ _ _ σ = _ := h
    rw [hc] at h
    cases h
  | @uncompiled d' outer' u fresh _ σ₁ _ acc heager hrun =>
    subst heager
    obtain rfl := top acc.building
    have r := acc.records true
    obtain ⟨r', σ', hc, g⟩ := carry_isOk (d'.gather s.closed u) d'.span s.freshLocal σ
    obtain ⟨-, rfl⟩ := Prod.mk.inj (hc.symm.trans acc.carry)
    have hres := compiling_compileAlone (hk.records r hbody) (hi.records hk r rfl g)
      (convertible_record hk r rfl rfl) rfl rfl
    have hrun : compileAlone _ d'.id _ = _ := hrun
    rw [hrun] at hres
    cases hres with
    | failed _ _ => exact ⟨_, _, _, rfl⟩

/-! ## Finishing a session -/

/-- How converting the top scope ends. -/
inductive Finalizing (vars : String → Ty → Prop) (t : ScopeTable) (root : ScopeId) :
    Except ConversionError Conversion × Store → Prop
  | function {f : Closure} {im : Image} {E : Images} {σ : Store} :
      Emitted vars t E σ → E root = some im → im.scope.carried = none → im.code = .function f →
      Finalizing vars t root (.ok (.callable f), σ)
  | lambda {l : Label} {body : Expr} {f : Closure} {im : Image} {E : Images} {σ σ' : Store} :
      Emitted vars t E σ → E root = some im → im.scope.carried = none → im.code = .lambda l body →
      Lambda.compile ⟨l, im.scope.params, body⟩ σ = (.ok f, σ') →
      Finalizing vars t root (.ok (.callable f), σ')
  | residual {c : Carried} {e : Expr} {im : Image} {E : Images} {σ : Store} :
      Emitted vars t E σ → E root = some im → im.scope.carried = some c → im.Stands .root e →
      Finalizing vars t root (.ok (.residual e), σ)
  | failed {count limit : Nat} {span : Span} {σ : Store} :
      Overflows t root → Finalizing vars t root (.error (.tooManyParams count limit span), σ)

/-- Nothing is around a top scope, so that it captures only inputs. -/
theorem convertible_root (hk : s.Known vars offers around decl) {root : ScopeId} {sc : Scope}
    (hr : root ∈ s.roots) (hsc : s.closed.get? root = some sc) (hnone : sc.compiled = none) :
    Convertible s.closed around .root root sc where
  get? := hsc
  alive := (ScopeTable.alive_iff hsc).mp (hk.nested.root root hr).1
  raw z hz x hx := by
    rw [(hk.nested.root root hr).2] at hz
    obtain rfl := List.mem_singleton.mp hz
    obtain rfl := Option.some.inj (hsc.symm.trans hx)
    exact hnone
  gives c hc x hx := by
    have hb := hk.captured.slots root sc hsc x (by rwa [Scope.env_of_carried hc])
    unfold Backs at hb
    cases hv : x.value with
    | loc v =>
      simp only [hv, (hk.nested.root root hr).2, List.not_mem_nil, and_false] at hb
    | args => exact ⟨.args, .args hv⟩
    | var name => exact ⟨.var name x.ty, .var hv⟩

theorem finalizing_convertRoot (hk : s.Known vars offers around decl)
    (hi : s.Imaged vars around E σ) {root : ScopeId} (hr : root ∈ s.roots) {p : Plan}
    (hp : Plan.Converts vars s.closed around root p) :
    Finalizing vars s.closed root (convertRoot s.closed root p σ) := by
  obtain ⟨sc, hsc⟩ := (hk.nested.root root hr).1.get?
  unfold convertRoot
  rw [hsc]
  cases hf : sc.compiled with
  | some f =>
    obtain ⟨im, hE, hstatic, hcode⟩ := hi.emitted.compiled root sc f hsc hf
    simp only [Option.bind_some, hf]
    exact .function hi.emitted hE hstatic hcode
  | none =>
    simp only [Option.bind_some, hf]
    have hres := hp.2 .root sc E σ (convertible_root hk hr hsc hf) hi.emitted (hi.clear root)
    cases hconv : p.convert .root σ with
    | mk r σ₁ =>
      rw [hconv] at hres
      cases hres with
      | failed _ ho =>
        rw [Outcome.bind_error hconv]
        exact .failed ho
      | @done e im E' _ _ he _ hE _ hst _ =>
        rw [Outcome.bind_ok hconv]
        have hsound := (he.sound root im hE).2
        cases hst with
        | function hc => exact .function he hE hc rfl
        | bind hc hg => exact .residual he hE hc (.bind hc hg)
        | @lambda x l body hc =>
          have hfit := hsound.fits
          simp only [Scope.Fits, Scope.limit, hc] at hfit
          cases hsound.built with
          | lambda _ _ hv =>
            have hlocals : x.frame.locals = x.params.map Param.id := by
              simp [Scope.frame, Frame.locals, hc]
            have hcomp := Lambda.compile_eq (l := ⟨l, x.params, body⟩) (σ := σ₁)
              (he.lazy root _ l body hE rfl)
              (by simp only [Lambda.verify, hfit, if_true, ← hlocals, hv])
            show Finalizing _ _ _ ((ConvertM.compile _ >>= fun f => pure (.callable f)) σ₁)
            rw [Outcome.bind_ok (ConvertM.compile_eq_ok hcomp)]
            exact .lambda he hE hc rfl hcomp

/-- A finished session has the result of converting its top scope. -/
theorem finalize_eq_convertRoot (hk : s.Known vars offers around decl) {root : ScopeId}
    (hs : s.stack = []) (hr : s.roots = [root]) (σ : Store) :
    ∃ p used, Plan.build s.closed root {} = (.ok p, used) ∧
      Plan.Converts vars s.closed around root p ∧
      s.finalize σ = ((convertRoot s.closed root p σ).1.map (⟨·, used⟩),
        (convertRoot s.closed root p σ).2) := by
  obtain ⟨sc, hsc⟩ := (hk.nested.root root (hr ▸ List.mem_singleton_self root)).1.get?
  obtain ⟨p, used, hbuild, hp⟩ := build_converts hk hsc {}
  refine ⟨p, used, hbuild, hp, ?_⟩
  rw [finalize_eq hs hr, hbuild]
  have hplan : (ConvertM.ofExcept (.ok p)) σ = (.ok p, σ) := rfl
  rw [Outcome.bind_ok hplan]
  cases hc : convertRoot s.closed root p σ with
  | mk r σ' =>
    cases r with
    | error e => exact Outcome.bind_error hc
    | ok result => exact Outcome.bind_ok hc

/-- What is reached through tokens from a scope with an image has an image, so it fits. -/
theorem fits_of_chain {t : ScopeTable} (he : Emitted vars t E σ) {id : ScopeId} {im : Image}
    {sc last : Scope} {path : List Scope} (hE : E id = some im) (hsc : t.get? id = some sc)
    (hp : TokenChain t sc path last) : last.Fits := by
  induction hp generalizing id im with
  | here sc =>
    obtain ⟨x, alive, compiled, hx, e⟩ := he.scope id im hE
    obtain rfl := Option.some.inj (hsc.symm.trans hx)
    have hfit := (he.sound id im hE).2.fits
    rw [e] at hfit
    exact hfit
  | @step sc child last path c hmem huse hchild _ ih =>
    obtain ⟨x, alive, compiled, hx, e⟩ := he.scope id im hE
    obtain rfl := Option.some.inj (hsc.symm.trans hx)
    obtain ⟨body, ht⟩ := (he.sound id im hE).2.built.translates
    rw [e] at ht
    obtain ⟨im', hE'⟩ := ht.image_of_uses huse
    exact ih hE' hchild

theorem not_fits_iff (sc : Scope) :
    ¬ sc.Fits ↔ sc.isStatic = true ∧ 16 < sc.params.length ∨
      sc.isStatic = false ∧ 15 < sc.params.length := by
  unfold Scope.Fits Scope.limit Scope.isStatic
  cases sc.carried with
  | none => simp [Closure.maxArity]
  | some c => simp [Closure.maxBoundArity, Closure.maxArity]

/-- In the run of a front end, closing a scope whose body is being built and finishing a session with
one top scope fail only because a lambda declares too many parameters.  Finishing fails iff such a
lambda is reached from the top scope through tokens. -/
theorem fails_only_on_arity {vars : String → Ty → Prop} {s : Session} {σ : Store}
    {offers : List (ScopeId × Expr)} (h : FrontEnd vars s σ offers) :
    (∀ d outer body eager e, s.building = .ok (d, outer) →
      FrontBody (fun x => (d.id, x) ∈ offers) body → (s.close body eager σ).1.1 = .error e →
      ∃ count limit span, e = .tooManyParams count limit span) ∧
    ∀ root, s.stack = [] → s.roots = [root] →
      (∀ e, (s.finalize σ).1 = .error e → ∃ count limit span, e = .tooManyParams count limit span) ∧
      ((∃ e, (s.finalize σ).1 = .error e) ↔
        ∃ sc path last, s.closed.get? root = some sc ∧ TokenChain s.closed sc path last ∧
          (last.isStatic = true ∧ 16 < last.params.length ∨
            last.isStatic = false ∧ 15 < last.params.length)) := by
  obtain ⟨around, decl, E, hk, hi⟩ := h.imaged
  refine ⟨fun d outer body eager e hb hbody he => close_error hk hi hb hbody he, ?_⟩
  intro root hs hr
  have hroot : root ∈ s.roots := hr ▸ List.mem_singleton_self root
  obtain ⟨sc, hsc⟩ := (hk.nested.root root hroot).1.get?
  obtain ⟨p, used, -, hp, hfin⟩ := finalize_eq_convertRoot hk hs hr σ
  have hres := finalizing_convertRoot hk hi hroot hp
  -- all that is reached from a scope with an image fits
  have fits : ∀ {E σ im}, Emitted vars s.closed E σ → E root = some im →
      ¬ ∃ sc path last, s.closed.get? root = some sc ∧ TokenChain s.closed sc path last ∧
        (last.isStatic = true ∧ 16 < last.params.length ∨
          last.isStatic = false ∧ 15 < last.params.length) := by
    rintro E σ im he hE ⟨sc, path, last, hsc, hchain, hmany⟩
    exact (not_fits_iff last).mpr hmany (fits_of_chain he hE hsc hchain)
  rw [hfin]
  cases hconv : convertRoot s.closed root p σ with
  | mk r σ' =>
    rw [hconv] at hres
    cases hres with
    | function he hE _ _ => exact ⟨nofun, iff_of_false (nofun) (fits he hE)⟩
    | lambda he hE _ _ _ => exact ⟨nofun, iff_of_false (nofun) (fits he hE)⟩
    | residual he hE _ _ => exact ⟨nofun, iff_of_false (nofun) (fits he hE)⟩
    | failed ho =>
      refine ⟨by rintro e ⟨⟩; exact ⟨_, _, _, rfl⟩, iff_of_true ⟨_, rfl⟩ ?_⟩
      obtain ⟨y, last, hw, hy, ha, hfit⟩ := ho
      obtain ⟨path, hchain⟩ := chain_of_within hk.nested hsc hw hy ha
      exact ⟨sc, path, last, hsc, hchain, (not_fits_iff last).mp hfit⟩

/-- Scope 2, inside scope 1, has sixteen parameters and has looked up parameter 0 of scope 1. -/
def crowd : List Command :=
  [.enter .dummy, .declare .int "a" .dummy, .begin, .enter .dummy] ++
    ["b", "c", "d", "e", "f", "g", "h", "i", "j", "k", "l", "m", "n", "o", "p", "q"].map
      (.declare .int · .dummy) ++ [.begin, .lookup "a"]

/-- Scope 2 gives parameter 0, and scope 1 gives scope 2. -/
def crowdRun : (List (Except ConversionError Answer) × Session) × Store :=
  run {} (crowd ++ [.close (.loc 0) true] ++ [.close (.placeholder 2) false]) {}

theorem frontEnd_crowdRun : ∃ offers, FrontEnd (fun _ _ => True) crowdRun.1.2 crowdRun.2 offers := by
  have hnew : FrontEnd (fun _ _ => True) {} {} [] := .new Store.valid_empty
  have hfree : ∀ c ∈ crowd, ∀ s offers, Obeys (fun _ _ => True) s offers c := by
    simp [crowd, Obeys]
  have h₁ := (hnew.run hfree).run_concat (.close (.loc 0) true)
    (obeys_close 2 (by decide +kernel) (.given (mem_offers (by decide +kernel))))
  have h₂ := h₁.run_concat (.close (.placeholder 2) false)
    (obeys_close 1 (by decide +kernel) (.given (mem_offers (by decide +kernel))))
  rw [crowdRun]
  exact ⟨_, h₂⟩

theorem fails_only_on_arity_crowd :
    (∃ offers, FrontEnd (fun _ _ => True) crowdRun.1.2 crowdRun.2 offers) ∧
      crowdRun.1.2.stack = [] ∧ crowdRun.1.2.roots = [1] ∧
      (∃ e, (crowdRun.1.2.finalize crowdRun.2).1 = .error e) ∧
      ∃ sc path last, crowdRun.1.2.closed.get? 1 = some sc ∧
        TokenChain crowdRun.1.2.closed sc path last ∧
        (last.isStatic = true ∧ 16 < last.params.length ∨
          last.isStatic = false ∧ 15 < last.params.length) := by
  obtain ⟨offers, h⟩ := frontEnd_crowdRun
  have hstack : crowdRun.1.2.stack = [] := List.length_eq_zero_iff.mp (by decide +kernel)
  have hroots : crowdRun.1.2.roots = [1] := by decide +kernel
  have hfail : ∃ e, (crowdRun.1.2.finalize crowdRun.2).1 = .error e := by
    have hf : (crowdRun.1.2.finalize crowdRun.2).1.toBool = false := by decide +kernel
    cases hx : (crowdRun.1.2.finalize crowdRun.2).1 with
    | error e => exact ⟨e, rfl⟩
    | ok fin =>
      rw [hx] at hf
      cases hf
  exact ⟨⟨offers, h⟩, hstack, hroots, hfail,
    ((fails_only_on_arity h).2 1 hstack hroots).2.mp hfail⟩

end Session

end ClosureConversion
