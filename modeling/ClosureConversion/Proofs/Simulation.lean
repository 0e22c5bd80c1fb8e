import ClosureConversion.Proofs.Clients
import ClosureConversion.Proofs.Related

/-!
Compiled code runs as the direct reading does.

`Tracks` ties a world to the state of the reading and to the store: the labels in it are in use, and
a scope that captures nothing has the label of its function once that exists.  `Agrees` says that two
runs end alike: with related values, or with the same failure, in states that a later world ties.

* `agrees_eval`: the code of a body agrees with the body.
* `agrees_invoke`: related functions agree on related arguments, at every depth of calls.
* `play_eq`: clients that have related functions see the same.
-/

namespace ClosureConversion

/-! ## Worlds -/

namespace World

variable {W W' W'' : World}

theorem Sub.refl (W : World) : W.Sub W := fun _ _ h => h

theorem Sub.trans (h : W.Sub W') (k : W'.Sub W'') : W.Sub W'' := fun i l e => k i l (h i l e)

def add (W : World) (i : Identity) (l : Label) : World := fun j => if j = i then some l else W j

theorem sub_add {i : Identity} (h : W i = none) (l : Label) : W.Sub (W.add i l) := by
  intro j k hj
  unfold add
  rw [if_neg, hj]
  rintro rfl
  rw [h] at hj
  cases hj

theorem add_self (W : World) (i : Identity) (l : Label) : W.add i l i = some l := if_pos rfl

theorem of_add {i j : Identity} {l k : Label} (h : W.add i l j = some k) :
    j = i ∧ k = l ∨ j ≠ i ∧ W j = some k := by
  unfold add at h
  split at h
  · next e => exact .inl ⟨e, (Option.some.inj h).symm⟩
  · next e => exact .inr ⟨e, h⟩

end World

/-- The world fits the number of functions that the reading has made, and the store. -/
structure Tracks (S : Setting) (W : World) (n : Nat) (σ : Store) : Prop where
  below : ∀ i l, W i = some l → l < σ.nextLabel
  inj : ∀ i j l, W i = some l → W j = some l → i = j
  made : ∀ m l, W (.fresh m) = some l → m < n
  function : ∀ id im f, S.images id = some im → im.code = .function f → im.scope.carried = none →
    W (.shared id) = some f.label
  lambda : ∀ id im l body, S.images id = some im → im.code = .lambda l body →
    σ.function? l = none ∧ W (.shared id) = none ∨
      ∃ label, σ.function? l = some (.code label (im.scope.params.map Param.id) body) ∧
        W (.shared id) = some label

namespace Tracks

variable {S : Setting} {W : World} {n : Nat} {σ σ' : Store}

theorem labels (h : Tracks S W n σ) (hσ : σ.Labels σ') : Tracks S W n σ' where
  below i l hi := Nat.lt_of_lt_of_le (h.below i l hi) hσ.next
  inj := h.inj
  made := h.made
  function := h.function
  lambda id im l body hid hcode := by
    unfold Store.function?
    rw [hσ.functions]
    exact h.lambda id im l body hid hcode

/-- A new label keeps the world one to one. -/
theorem inj_add (h : Tracks S W n σ) (i : Identity) :
    ∀ j k l, W.add i σ.nextLabel j = some l → W.add i σ.nextLabel k = some l → j = k := by
  intro j k l hj hk
  rcases World.of_add hj with ⟨ej, el⟩ | ⟨-, hj⟩ <;> rcases World.of_add hk with ⟨ek, el'⟩ | ⟨-, hk⟩
  · exact ej.trans ek.symm
  · exact absurd (h.below k l hk) (el ▸ Nat.lt_irrefl _)
  · exact absurd (h.below j l hj) (el' ▸ Nat.lt_irrefl _)
  · exact h.inj j k l hj hk

theorem below_add (h : Tracks S W n σ) (i : Identity) :
    ∀ j l, W.add i σ.nextLabel j = some l → l < σ.nextLabel + 1 := by
  intro j l hj
  rcases World.of_add hj with ⟨-, rfl⟩ | ⟨-, hj⟩
  · exact Nat.lt_succ_self _
  · exact Nat.lt_succ_of_lt (h.below j l hj)

/-- A new function on both sides. -/
theorem fresh (h : Tracks S W n σ) :
    W.Sub (W.add (.fresh n) σ.nextLabel) ∧
      Tracks S (W.add (.fresh n) σ.nextLabel) (n + 1) { σ with nextLabel := σ.nextLabel + 1 } := by
  have hnone : W (.fresh n) = none := by
    cases hn : W (.fresh n) with
    | none => rfl
    | some l => exact absurd (h.made n l hn) (Nat.lt_irrefl n)
  have hsub := World.sub_add hnone σ.nextLabel
  refine ⟨hsub, h.below_add _, h.inj_add _, ?_, ?_, ?_⟩
  · intro m l hm
    rcases World.of_add hm with ⟨e, -⟩ | ⟨-, hm⟩
    · cases e
      exact Nat.lt_succ_self n
    · exact Nat.lt_succ_of_lt (h.made m l hm)
  · exact fun id im f hid hcode hc => hsub _ _ (h.function id im f hid hcode hc)
  · exact h.lambda

/-- A lambda is compiled when it is first met. -/
theorem compile (h : Tracks S W n σ) {id : ScopeId} {im : Image} {l : Label} {body : Expr}
    (hinj : ∀ a b im im', S.images a = some im → S.images b = some im' →
      im.code.label = im'.code.label → a = b)
    (hid : S.images id = some im) (hcode : im.code = .lambda l body)
    (hnone : W (.shared id) = none) :
    W.Sub (W.add (.shared id) σ.nextLabel) ∧
      Tracks S (W.add (.shared id) σ.nextLabel) n
        { σ with
          nextLabel := σ.nextLabel + 1
          functions := (l, .code σ.nextLabel (im.scope.params.map Param.id) body)
            :: σ.functions } := by
  have hsub := World.sub_add hnone σ.nextLabel
  refine ⟨hsub, h.below_add _, h.inj_add _, ?_, ?_, ?_⟩
  · intro m k hm
    rcases World.of_add hm with ⟨e, -⟩ | ⟨-, hm⟩
    · cases e
    · exact h.made m k hm
  · exact fun id im f hid hcode hc => hsub _ _ (h.function id im f hid hcode hc)
  · intro id' im' l' body' hid' hcode'
    have hlookup : ∀ f, Store.function? { σ with
        nextLabel := σ.nextLabel + 1, functions := (l, f) :: σ.functions } l' =
        if l' = l then some f else σ.function? l' := by
      intro f
      unfold Store.function?
      rw [List.lookup_cons]
      by_cases he : l' = l
      · simp [he]
      · simp only [beq_eq_false_iff_ne.mpr he, if_neg he]
    rw [hlookup]
    by_cases he : l' = l
    · have hsame : id' = id := hinj id' id im' im hid' hid (by rw [hcode, hcode', he]; rfl)
      subst hsame
      obtain rfl := Option.some.inj (hid.symm.trans hid')
      rw [hcode] at hcode'
      cases hcode'
      exact .inr ⟨σ.nextLabel, if_pos rfl, World.add_self _ _ _⟩
    · have hne : id' ≠ id := by
        rintro rfl
        obtain rfl := Option.some.inj (hid.symm.trans hid')
        rw [hcode] at hcode'
        cases hcode'
        exact he rfl
      have hsh : W.add (.shared id) σ.nextLabel (.shared id') = W (.shared id') :=
        if_neg fun e => hne (Identity.shared.inj e)
      rw [if_neg he, hsh]
      exact h.lambda id' im' l' body' hid' hcode'

end Tracks

/-! ## Runs that end alike -/

/-- Both runs succeed with related results, or fail in the same way. -/
inductive Agrees {α β : Type} (S : Setting) (R : World → α → β → Prop) (W : World) :
    Except Halt α × Nat → Except Halt β × Store → Prop
  | ok {W' : World} {a : α} {b : β} {n : Nat} {σ : Store} :
      W.Sub W' → Tracks S W' n σ → R W' a b → Agrees S R W (.ok a, n) (.ok b, σ)
  | error {W' : World} {h : Halt} {n : Nat} {σ : Store} :
      W.Sub W' → Tracks S W' n σ → Agrees S R W (.error h, n) (.error h, σ)

namespace Agrees

variable {α β γ δ : Type} {S : Setting} {R : World → α → β → Prop} {Q : World → γ → δ → Prop}
  {W W' : World} {n : Nat} {σ : Store}

theorem of_sub {x : Except Halt α × Nat} {y : Except Halt β × Store} (hW : W.Sub W')
    (h : Agrees S R W' x y) : Agrees S R W x y := by
  cases h with
  | ok hs ht hr => exact .ok (hW.trans hs) ht hr
  | error hs ht => exact .error (hW.trans hs) ht

theorem bind {x : ReadM α} {y : EvalM β} {f : α → ReadM γ} {g : β → EvalM δ}
    (h : Agrees S R W (x n) (y σ))
    (hf : ∀ W' a b n' σ', W.Sub W' → Tracks S W' n' σ' → R W' a b →
      Agrees S Q W' (f a n') (g b σ')) :
    Agrees S Q W ((x >>= f) n) ((y >>= g) σ) := by
  generalize hx : x n = o, hy : y σ = p at h
  cases h with
  | error hs ht =>
    rw [Outcome.bind_error hx, Outcome.bind_error hy]
    exact .error hs ht
  | ok hs ht hr =>
    rw [Outcome.bind_ok hx, Outcome.bind_ok hy]
    exact (hf _ _ _ _ _ hs ht hr).of_sub hs

theorem pure {a : α} {b : β} (ht : Tracks S W n σ) (h : R W a b) :
    Agrees S R W ((Pure.pure a : ReadM α) n) ((Pure.pure b : EvalM β) σ) :=
  .ok (.refl W) ht h

theorem fail (f : Fault) (ht : Tracks S W n σ) :
    Agrees S R W ((ReadM.fail f : ReadM α) n) ((EvalM.fail f : EvalM β) σ) :=
  .error (.refl W) ht

theorem ofExcept {r : Except Fault α} {r' : Except Fault β} (ht : Tracks S W n σ)
    (h : Alike (R W) r r') : Agrees S R W (ReadM.ofExcept r n) (EvalM.ofExcept r' σ) := by
  cases h with
  | ok h => exact .pure ht h
  | error f => exact .fail f ht

/-- The same result on both sides. -/
theorem same (r : Except Fault α) (ht : Tracks S W n σ) :
    Agrees S (fun _ => Eq) W (ReadM.ofExcept r n) (EvalM.ofExcept r σ) := by
  cases r with
  | ok a => exact .pure ht rfl
  | error f => exact .fail f ht

end Agrees

/-! ## Settings -/

/-- What holds of the code of a scope tree. -/
structure Setting.Coherent (S : Setting) : Prop where
  sound : S.images.Sound fun name ty => ty = S.types name
  scope : ∀ id im, S.images id = some im → ∃ sc, S.table.get? id = some sc ∧ S.Depicts sc im
  inj : ∀ a b im im', S.images a = some im → S.images b = some im' →
    im.code.label = im'.code.label → a = b
  carrier : ∀ id im c, S.images id = some im → im.scope.carried = some c →
    c.param.id ∉ im.scope.params.map Param.id
  captured : ∀ id im c x, S.images id = some im → im.scope.carried = some c → x ∈ c.env.slots →
    ∀ v, x.value = .loc v → v ∉ im.scope.params.map Param.id
  inputs : ∀ id im c x, S.images id = some im → im.scope.carried = some c → x ∈ c.env.slots →
    (x.value = .args → x.ty = .argVector) ∧ ∀ name, x.value = .var name → x.ty = S.types name

variable {S : Setting} {W W' : World} {n : Nat} {σ : Store} {ρ : List (LocalId × Datum Lexical)}
  {ctx : Context}

/-! ## Reading captured values -/

/-- Code for the body of the scope runs here, beside the body itself. -/
structure Inside (S : Setting) (W : World) (sc : Scope) (ρ : List (LocalId × Datum Lexical))
    (ctx : Context) : Prop where
  own : ∀ p ∈ sc.params, ∃ v w, ρ.lookup p.id = some v ∧ ctx.locals.lookup p.id = some w ∧
    Related S W v w
  carried : ∀ c, sc.carried = some c → ∃ first vs ws, ctx.locals.lookup c.param.id = some first ∧
    Stores c.layout.segments ws first ∧
    List.Forall₂ (fun x v => x.value.Denotes S ρ v) c.env.slots vs ∧
    List.Forall₂ (Related S W) vs ws

theorem Inside.mono {sc : Scope} (h : Inside S W sc ρ ctx) (hW : W.Sub W') :
    Inside S W' sc ρ ctx where
  own p hp := by
    obtain ⟨v, w, hv, hw, hr⟩ := h.own p hp
    exact ⟨v, w, hv, hw, hr.mono hW⟩
  carried c hc := by
    obtain ⟨first, vs, ws, hf, hst, hden, hr⟩ := h.carried c hc
    exact ⟨first, vs, ws, hf, hst, hden, hr.imp fun _ _ hr => hr.mono hW⟩

section

variable {sc : Scope} {call : Closure → List Value → EvalM Value}

theorem yields_loc {id : LocalId} {w : Value} (h : ctx.locals.lookup id = some w) :
    Yields call ctx (.loc id) w := by
  intro σ
  unfold Term.eval Context.read
  rw [h]
  rfl

/-- What the code reads from the carrier is what the capture stands for. -/
theorem Inside.read (h : Inside S W sc ρ ctx)
    (hl : ∀ c, sc.carried = some c → Segments 0 c.env.types c.layout.segments) {c : Carried}
    (hc : sc.carried = some c) {x : Capture} {i : Nat} (hi : c.env.indexOf? x = some i) {e : Expr}
    (he : c.read i = .ok e) :
    ∃ v w, x.Denotes S ρ v ∧ Yields call ctx e w ∧ Related S W v w := by
  obtain ⟨first, vs, ws, hf, hst, hden, hr⟩ := h.carried c hc
  obtain ⟨hlt, hval, -⟩ := List.findIdx?_eq_some_iff_getElem.mp hi
  have hv : i < vs.length := hden.length_eq ▸ hlt
  have hw : i < ws.length := hr.length_eq ▸ hv
  have hlen : ws.length = c.env.types.length := by
    rw [← hr.length_eq, ← hden.length_eq, Env.types, List.length_map]
  refine ⟨vs[i], ws[i], ?_, ?_, hr.get hv hw⟩
  · have := hden.get hlt hv
    rwa [List.get_eq_getElem, beq_iff_eq.mp hval] at this
  · exact yields_access (hl c hc) hst hlen (yields_loc hf) he (List.getElem?_eq_getElem hw)

theorem Inside.fetch (h : Inside S W sc ρ ctx)
    (hl : ∀ c, sc.carried = some c → Segments 0 c.env.types c.layout.segments) {x : Capture}
    {e : Expr} (he : sc.Fetches x e) :
    ∃ v w, x.Denotes S ρ v ∧ Yields call ctx e w ∧ Related S W v w := by
  obtain ⟨c, i, hc, hi, hr⟩ := he
  exact h.read hl hc hi hr

/-- What the scope supplies to the carriers of its children. -/
theorem Inside.gives (h : Inside S W sc ρ ctx)
    (hl : ∀ c, sc.carried = some c → Segments 0 c.env.types c.layout.segments) {x : Slot} {e : Expr}
    (he : sc.frame.Gives x e) :
    ∃ v w, x.value.Denotes S ρ v ∧ Yields call ctx e w ∧ Related S W v w := by
  generalize hf : sc.frame = f at he
  cases he with
  | own _ hval hmem =>
    cases hf
    obtain ⟨p, hp, rfl⟩ := List.mem_map.mp hmem
    obtain ⟨v, w, hv, hw, hr⟩ := h.own p hp
    rw [hval]
    exact ⟨v, w, hv, yields_loc hw, hr⟩
  | @forwarded _ _ c _ _ _ _ hi hr =>
    have hc : sc.carried = some c := (Frame.scope.inj hf).2.2
    exact h.read hl hc hi hr
  | args _ => cases hf
  | var _ => cases hf

end

/-! ## Checking captured values -/

/-- A capture that is no parameter has a value of its type. -/
theorem conforms_of_denotes {x : Slot} {v : Datum Lexical}
    (hty : (x.value = .args → x.ty = .argVector) ∧
      ∀ name, x.value = .var name → x.ty = S.types name)
    (hden : x.value.Denotes S ρ v) (hp : x.param? ρ = none) : v.conforms x.ty = true := by
  cases hv : x.value with
  | loc id =>
    simp only [hv, Capture.Denotes] at hden
    simp [Slot.param?, hv, hden] at hp
  | args =>
    simp only [hv, Capture.Denotes] at hden
    rw [hden, hty.1 hv, Datum.conforms_lift]
    show Datum.allConform _ .any = true
    simp [Datum.allConform_eq_all, Datum.conforms]
  | var name =>
    simp only [hv, Capture.Denotes] at hden
    obtain ⟨d, -, rfl, hc⟩ := hden
    rw [hty.2 name hv, Datum.conforms_lift]
    exact hc

/-- The check of the reading and the check of the carriers' fields are the same. -/
theorem checkSlots_eq {slots : List Slot} {ws : List Value}
    (hty : ∀ x ∈ slots, (x.value = .args → x.ty = .argVector) ∧
      ∀ name, x.value = .var name → x.ty = S.types name)
    (h : List.Forall₂ (fun x w => ∃ v, x.value.Denotes S ρ v ∧ Related S W v w) slots ws) :
    checkSlots ρ slots = Datum.checkFields ws (slots.map Slot.ty) := by
  induction h with
  | nil => rfl
  | @cons x w _ _ hx _ ih =>
    rw [List.forall_mem_cons] at hty
    obtain ⟨v, hv, hr⟩ := hx
    have ih := ih hty.2
    simp only [List.map_cons, checkSlots, Datum.checkFields]
    cases hp : x.param? ρ with
    | none =>
      have hc := conforms_of_denotes hty.1 hv hp
      rw [hr.conforms_eq] at hc
      simp only [Datum.checked, hc, if_true]
      exact ih
    | some v' =>
      have hsame : v' = v := by
        unfold Slot.param? at hp
        cases hval : x.value with
        | loc id =>
          simp only [hval, Capture.Denotes] at hp hv
          exact Option.some.inj (hp.symm.trans hv)
        | args => simp [hval] at hp
        | var name => simp [hval] at hp
      subst hsame
      simp only [Datum.checked, wrongType, hr.conforms_eq, hr.akin.kind_eq]
      split
      · exact ih
      · rfl

/-! ## Tokens -/

section

variable {call : Closure → List Value → EvalM Value}

theorem lambda_of_static {sc : Scope} (h : sc.carried = none) (r : Reading) (n : Nat) :
    r.lambda ρ sc n = (.ok (.mk (.shared sc.id) sc []), n) := by
  unfold Reading.lambda
  rw [h]
  rfl

/-- A lambda that captures is a new function, if its parameters pass the check. -/
theorem lambda_of_carried {sc : Scope} {c : Carried} (h : sc.carried = some c) {r : Reading}
    (hr : r.strict = true) (n : Nat) :
    r.lambda ρ sc n =
      match checkSlots ρ (checkOrder c.env.slots) with
      | .ok () => (.ok (.mk (.fresh n) sc ρ), n + 1)
      | .error f => (.error (.fault f), n) := by
  unfold Reading.lambda
  simp only [h, hr, if_true]
  cases checkSlots ρ (checkOrder c.env.slots) <;> rfl

/-- The values of the expressions that supply a carrier. -/
theorem exists_supplied {frame : Frame} {slots : List Slot} {es : List Expr}
    (hg : List.Forall₂ frame.Gives slots es)
    (h : ∀ x ∈ slots, ∀ e, frame.Gives x e →
      ∃ v w, x.value.Denotes S ρ v ∧ Yields call ctx e w ∧ Related S W v w) :
    ∃ vs ws, List.Forall₂ (fun x v => x.value.Denotes S ρ v) slots vs ∧
      List.Forall₂ (Yields call ctx) es ws ∧ List.Forall₂ (Related S W) vs ws := by
  induction hg with
  | nil => exact ⟨[], [], .nil, .nil, .nil⟩
  | cons hx _ ih =>
    rw [List.forall_mem_cons] at h
    obtain ⟨v, w, hv, hw, hr⟩ := h.1 _ hx
    obtain ⟨vs, ws, hvs, hws, hrs⟩ := ih h.2
    exact ⟨v :: vs, w :: ws, .cons hv hvs, .cons hw hws, .cons hr hrs⟩

theorem checkOrder_eq {slots : List Slot} {vs : List (Datum Lexical)} {ws : List Value}
    (hty : ∀ x ∈ slots, (x.value = .args → x.ty = .argVector) ∧
      ∀ name, x.value = .var name → x.ty = S.types name)
    (hden : List.Forall₂ (fun x v => x.value.Denotes S ρ v) slots vs)
    (hr : List.Forall₂ (Related S W) vs ws) :
    checkSlots ρ (checkOrder slots) =
      Datum.checkFields (checkOrder ws) (checkOrder (slots.map Slot.ty)) := by
  have hboth : List.Forall₂ (fun x w => ∃ v, x.value.Denotes S ρ v ∧ Related S W v w) slots ws := by
    clear hty
    induction hden generalizing ws with
    | nil =>
      cases hr
      exact .nil
    | cons hx _ ih =>
      cases hr with
      | cons h hr => exact .cons ⟨_, hx, h⟩ (ih hr)
  rw [checkOrder_map]
  exact checkSlots_eq (fun x hx => hty x (mem_checkOrder.mp hx)) (forall₂_checkOrder hboth)

/-- A scope that captures nothing is one function, which its code finds or makes. -/
theorem exists_shared (call : Closure → List Value → EvalM Value) (ctx : Context)
    {vars : String → Ty → Prop} {im : Image} (hs : im.Sound vars S.images)
    (hinj : ∀ a b im im', S.images a = some im → S.images b = some im' →
      im.code.label = im'.code.label → a = b)
    (ht : Tracks S W n σ) {id : ScopeId} (hid : S.images id = some im)
    (hc : im.scope.carried = none) {frame : Frame} {e : Expr} (hst : im.Stands frame e) :
    ∃ W' σ' label body, e.eval call ctx σ =
        (.ok (.function (.code label (im.scope.params.map Param.id) body)), σ') ∧ W.Sub W' ∧
      Tracks S W' n σ' ∧ W' (.shared id) = some label ∧
      im.code.Runs label (im.scope.params.map Param.id) body := by
  have hlocals : im.scope.frame.locals = im.scope.params.map Param.id := by
    simp [Scope.frame, Frame.locals, hc]
  cases hst with
  | bind hc' _ =>
    rw [hc] at hc'
    cases hc'
  | function _ =>
    cases hs.built with
    | @function _ label body _ =>
      have hlabel := ht.function id _ _ hid rfl hc
      rw [hlocals] at hlabel ⊢
      exact ⟨W, σ, label, body, rfl, .refl W, ht, hlabel, .function⟩
  | @lambda x l body hnone =>
    rcases ht.lambda id _ l body hid rfl with ⟨hfun, hW⟩ | ⟨label, hfun, hW⟩
    · have hfit := hs.fits
      simp only [Scope.Fits, Scope.limit, hnone] at hfit
      cases hs.built with
      | lambda _ _ hv =>
        have hcomp := Lambda.compile_eq (l := ⟨l, x.params, body⟩) hfun
          (by simp only [Lambda.verify, hfit, if_true, ← hlocals, hv])
        obtain ⟨hsub, ht'⟩ := ht.compile hinj hid rfl hW
        exact ⟨_, _, _, body, eval_lambda hcomp, hsub, ht', World.add_self W _ _, .lambda⟩
    · exact ⟨W, σ, label, body, eval_lambda (Lambda.compile_of_function? hfun), .refl W, ht, hW,
        .lambda⟩

/-- A new function of these values, which go into carriers. -/
def Layout.capture (l : Layout) (f : Closure) (arity : Nat) (ws : List Value) : EvalM Value := do
  let first ← Layout.build ws l.head l.rest
  .function <$> ExceptT.adapt .fault (f.bind arity first)

theorem eval_bind {l : Layout} {types : List Ty} (hs : Segments 0 types l.segments) {es : List Expr}
    (hlen : es.length = types.length) (f : Closure) (arity : Nat) (σ : Store) :
    (Term.bind (Layout.chain es l.head l.rest) f arity).eval call ctx σ =
      (Term.evalAll call ctx es >>= l.capture f arity) σ := by
  unfold Term.eval
  show _ = (Term.evalAll call ctx es >>= fun ws => Layout.build ws l.head l.rest >>= _) σ
  rw [← bind_assoc]
  exact Outcome.bind_congr (eval_chain_eq hs hlen σ) fun _ _ _ => rfl

/-- How making a function that captures these values ends. -/
inductive Captures (S : Setting) (W : World) (n : Nat) (c : Carried) (arity : Nat) (f : Closure)
    (ws : List Value) : Except Halt Value × Store → Prop
  | ok {W' : World} {first : Value} {label : Label} {σ : Store} :
      Datum.checkFields (checkOrder ws) (checkOrder c.env.types) = .ok () →
      Stores c.layout.segments ws first → W.Sub W' → Tracks S W' (n + 1) σ →
      W' (.fresh n) = some label →
      Captures S W n c arity f ws (.ok (.function (.bound label arity first f)), σ)
  | error {fault : Fault} {σ : Store} :
      Datum.checkFields (checkOrder ws) (checkOrder c.env.types) = .error fault → Tracks S W n σ →
      Captures S W n c arity f ws (.error (.fault fault), σ)

theorem captures_capture {vars : String → Ty → Prop} {x : Scope} {f : Closure} {c : Carried}
    (hs : Image.Sound vars S.images ⟨x, .function f⟩) (hc : x.carried = some c) {ws : List Value}
    (hlen : ws.length = c.env.types.length) (ht : Tracks S W n σ) :
    Captures S W n c x.params.length f ws (c.layout.capture f x.params.length ws σ) := by
  have hbuild := builds_build (hs.layout c hc) hlen σ
  unfold Layout.capture
  generalize hv : Layout.build ws c.layout.head c.layout.rest σ = o at hbuild
  cases hbuild with
  | error hk hl =>
    rw [Outcome.bind_error hv]
    exact .error hk (ht.labels hl)
  | ok hk hst hl =>
    have hfit : f.fit x.params.length = .ok () := by
      have hle := hs.fits
      simp only [Scope.Fits, Scope.limit, hc] at hle
      cases hs.built with
      | function _ =>
        simp [Closure.fit, Closure.checkBoundArity, hle, Closure.arity, Scope.frame, Frame.locals, hc]
        rfl
    obtain ⟨hsub, ht'⟩ := (ht.labels hl).fresh
    rw [Outcome.bind_ok hv, Outcome.map_eq, Outcome.adapt_eq, Closure.bind_run, hfit]
    exact .ok hk hst hsub ht' (World.add_self W _ _)

/-- The function that a lambda is, and the function that its code makes. -/
def SameFunction (S : Setting) (W : World) (f : Lexical) (w : Value) : Prop :=
  Related S W (.function f) w

section

variable {id : ScopeId} {sc : Scope}

theorem agrees_static (hS : S.Coherent) (ht : Tracks S W n σ) {im : Image}
    (hid : S.images id = some im) (hd : S.Depicts sc im) (hc : im.scope.carried = none)
    {frame : Frame} {e : Expr} (hst : im.Stands frame e) :
    Agrees S (SameFunction S) W (S.reading.lambda ρ sc n) (e.eval call ctx σ) := by
  obtain ⟨himid, hsound⟩ := hS.sound id im hid
  have hscid : sc.id = id := hd.id.symm.trans himid
  have hnone : sc.carried = none := hd.carried.symm.trans hc
  obtain ⟨W', σ', label, body, hrun, hsub, ht', hlabel, hr⟩ :=
    exists_shared call ctx hsound hS.inj ht hid hc hst
  rw [hd.params] at hrun hr
  rw [lambda_of_static hnone, hrun]
  exact .ok hsub ht' (.shared hd hnone hr (hscid ▸ hlabel))

theorem agrees_bind (hS : S.Coherent) (ht : Tracks S W n σ) {x : Scope} {f : Closure} {c : Carried}
    (hid : S.images id = some ⟨x, .function f⟩) (hd : S.Depicts sc ⟨x, .function f⟩)
    (hc : x.carried = some c) {frame : Frame} {es : List Expr}
    (hg : List.Forall₂ frame.Gives c.env.slots es)
    (hgive : ∀ y ∈ c.env.slots, ∀ e, frame.Gives y e →
      ∃ v w, y.value.Denotes S ρ v ∧ Yields call ctx e w ∧ Related S W v w) :
    Agrees S (SameFunction S) W (S.reading.lambda ρ sc n)
      ((Term.bind (Layout.chain es c.layout.head c.layout.rest) f x.params.length).eval
        call ctx σ) := by
  have hcar : sc.carried = some c := hd.carried.symm.trans hc
  have hp : x.params = sc.params := hd.params
  have hsound := (hS.sound id _ hid).2
  obtain ⟨vs, ws, hvs, hws, hr⟩ := exists_supplied hg hgive
  have hcheck : _ = Datum.checkFields (checkOrder ws) (checkOrder c.env.types) :=
    checkOrder_eq (fun y hy => hS.inputs id _ c y hid hc hy) hvs hr
  have htypes : c.env.slots.length = c.env.types.length := by rw [Env.types, List.length_map]
  rw [lambda_of_carried hcar rfl, hcheck, eval_bind (hsound.layout c hc) (hg.length_eq ▸ htypes),
    Outcome.bind_ok (evalAll_yields hws σ)]
  have hmade := captures_capture hsound hc (hr.length_eq ▸ hvs.length_eq ▸ htypes) ht
  generalize c.layout.capture f x.params.length ws σ = o at hmade ⊢
  cases hmade with
  | error hk ht' =>
    rw [hk]
    exact .error (.refl W) ht'
  | ok hk hst hsub ht' hlabel =>
    rw [hk]
    refine .ok hsub ht' ?_
    rw [hp]
    refine .fresh hd hcar rfl hlabel hst hvs hr.length_eq ?_
    exact fun p hpair => ((List.forall₂_iff_zip.mp hr).2 hpair).mono hsub

/-- What stands for a scope in code makes the function that the scope is there. -/
theorem agrees_stands (hS : S.Coherent) {im : Image} (hid : S.images id = some im)
    (hsc : S.table.get? id = some sc) {frame : Frame} {e : Expr} (hst : im.Stands frame e)
    (hgive : ∀ c, im.scope.carried = some c → ∀ x ∈ c.env.slots, ∀ e, frame.Gives x e →
      ∃ v w, x.value.Denotes S ρ v ∧ Yields call ctx e w ∧ Related S W v w)
    (ht : Tracks S W n σ) :
    Agrees S (SameFunction S) W (S.reading.lambda ρ sc n) (e.eval call ctx σ) := by
  obtain ⟨sc', hsc', hd⟩ := hS.scope id im hid
  obtain rfl := Option.some.inj (hsc.symm.trans hsc')
  have hst' := hst
  cases hst with
  | function hc => exact agrees_static hS ht hid hd hc hst'
  | lambda hc => exact agrees_static hS ht hid hd hc hst'
  | bind hc hg => exact agrees_bind hS ht hid hd hc hg (hgive _ hc)

theorem agrees_token (hS : S.Coherent) {im : Image} (hid : S.images id = some im) {frame : Frame}
    {e : Expr} (hst : im.Stands frame e)
    (hgive : ∀ c, im.scope.carried = some c → ∀ x ∈ c.env.slots, ∀ e, frame.Gives x e →
      ∃ v w, x.value.Denotes S ρ v ∧ Yields call ctx e w ∧ Related S W v w)
    (ht : Tracks S W n σ) :
    Agrees S (Related S) W (S.reading.token ρ id n) (e.eval call ctx σ) := by
  obtain ⟨sc, hsc, -⟩ := hS.scope id im hid
  have hrun := agrees_stands hS hid hsc hst hgive ht
  have htable : S.reading.table.get? id = some sc := hsc
  unfold Reading.token
  rw [htable]
  simp only [Outcome.map_eq]
  generalize S.reading.lambda ρ sc n = a, e.eval call ctx σ = b at hrun
  cases hrun with
  | ok hs ht h => exact .ok hs ht h
  | error hs ht => exact .error hs ht

end

end

/-! ## Bodies -/

/-- Related functions agree on related arguments. -/
def CallsAgree (S : Setting) (callL : Lexical → List (Datum Lexical) → ReadM (Datum Lexical))
    (callC : Closure → List Value → EvalM Value) : Prop :=
  ∀ W f g vs ws n σ, Related S W (.function f) (.function g) → List.Forall₂ (Related S W) vs ws →
    Tracks S W n σ → Agrees S (Related S) W (callL f vs n) (callC g ws σ)

section

variable {callL : Lexical → List (Datum Lexical) → ReadM (Datum Lexical)}
  {callC : Closure → List Value → EvalM Value} {sc : Scope}

theorem agrees_evalAll {as as' : List Expr} (hlen : as.length = as'.length)
    (h : ∀ a a', (a, a') ∈ as.zip as' → ∀ W n σ, Inside S W sc ρ ctx → Tracks S W n σ →
      Agrees S (Related S) W (S.reading.eval callL ρ a n) (a'.eval callC ctx σ))
    {W : World} {n : Nat} {σ : Store} (hin : Inside S W sc ρ ctx) (ht : Tracks S W n σ) :
    Agrees S (fun W => List.Forall₂ (Related S W)) W (S.reading.evalAll callL ρ as n)
      (Term.evalAll callC ctx as' σ) := by
  induction as generalizing as' W n σ with
  | nil =>
    obtain rfl := List.length_eq_zero_iff.mp hlen.symm
    exact .pure ht .nil
  | cons a as ih =>
    cases as' with
    | nil => cases hlen
    | cons a' as' =>
      unfold Reading.evalAll Term.evalAll
      refine (h a a' List.mem_cons_self W n σ hin ht).bind fun W₁ v w n₁ σ₁ hs₁ ht₁ hv => ?_
      refine (ih (Nat.succ.inj hlen) (fun b b' hb => h b b' (List.mem_cons_of_mem _ hb))
        (hin.mono hs₁) ht₁).bind fun W₂ vs ws n₂ σ₂ hs₂ ht₂ hvs => ?_
      exact .pure ht₂ (.cons (hv.mono hs₂) hvs)

theorem agrees_truth {x : ReadM (Datum Lexical)} {y : EvalM Value}
    (h : Agrees S (Related S) W (x n) (y σ)) :
    Agrees S (Related S) W ((do return Datum.bool (← ReadM.ofExcept (← x).toBool)) n)
      ((do return Datum.bool (← EvalM.ofExcept (← y).toBool)) σ) := by
  refine h.bind fun W₁ v w n₁ σ₁ _ ht₁ hv => ?_
  rw [hv.akin.toBool_eq]
  exact (Agrees.same _ ht₁).bind fun W₂ b _ n₂ σ₂ _ ht₂ e => e ▸ .pure ht₂ (.data (.bool b))

theorem agrees_eval (hS : S.Coherent) (hcall : CallsAgree S callL callC)
    (hl : ∀ c, sc.carried = some c → Segments 0 c.env.types c.layout.segments) {src tgt : Expr}
    (h : Translates (fun name ty => ty = S.types name) S.images sc src tgt)
    {W : World} {n : Nat} {σ : Store} (hin : Inside S W sc ρ ctx) (ht : Tracks S W n σ) :
    Agrees S (Related S) W (S.reading.eval callL ρ src n) (tgt.eval callC ctx σ) := by
  induction h generalizing W n σ with
  | @own p hp =>
    obtain ⟨v, w, hv, hw, hr⟩ := hin.own p hp
    rw [yields_loc hw σ]
    unfold Reading.eval
    rw [hv]
    exact .ok (.refl W) ht hr
  | captured hf =>
    obtain ⟨v, w, hv, hw, hr⟩ := hin.fetch hl hf
    rw [hw σ]
    unfold Reading.eval
    rw [show ρ.lookup _ = some v from hv]
    exact .ok (.refl W) ht hr
  | @argument i ty e hf =>
    obtain ⟨v, w, rfl, hw, hr⟩ := hin.fetch hl hf
    have hvec : Agrees S (Related S) W (S.reading.eval callL ρ .args n) (e.eval callC ctx σ) := by
      rw [hw σ]
      exact .ok (.refl W) ht hr
    show Agrees _ _ _ ((S.reading.eval callL ρ .args >>= _) n) ((e.eval callC ctx >>= _) σ)
    refine hvec.bind fun W₁ v w n₁ σ₁ _ ht₁ hv => ?_
    cases hv.peers with
    | data d =>
      cases d with
      | array items =>
        simp only [Datum.lift_array, List.getElem?_map, List.length_map]
        cases items[i]? with
        | none => exact .fail _ ht₁
        | some d => exact .ofExcept ht₁ ((Related.data d).checked ty)
      | _ => exact .fail _ ht₁
    | function _ => exact .fail _ ht₁
  | @var name ty e hty hf =>
    obtain ⟨v, w, ⟨d, hd, rfl, hconf⟩, hw, hr⟩ := hin.fetch hl hf
    have hconf' : (d.lift : Datum Lexical).conforms ty = true := by
      rw [Datum.conforms_lift, hty]
      exact hconf
    rw [hw σ]
    unfold Reading.eval
    rw [show S.reading.inputs.named.lookup name = some d from hd]
    simp only [Datum.checked, hconf', if_true]
    exact .ok (.refl W) ht hr
  | placeholder hid hst => exact agrees_token hS hid hst (fun _ _ x _ e he => hin.gives hl he) ht
  | @delegate c im f hid hc hcode =>
    obtain ⟨x, code⟩ := im
    cases hcode
    obtain rfl : x.id = c := (hS.sound c _ hid).1
    exact agrees_token hS hid (.function hc) (fun _ _ x _ e he => hin.gives hl he) ht
  | @literal e hp hchild =>
    cases e with
    | void => exact .pure ht (.data .void)
    | bool b => exact .pure ht (.data (.bool b))
    | int k => exact .pure ht (.data (.int k))
    | number x => exact .pure ht (.data (.number x))
    | string s => exact .pure ht (.data (.string s))
    | binary | unary | compare | logical | cond | call => cases hchild
    | _ => cases hp
  | @binary op _ _ _ _ _ _ ihl ihr =>
    unfold Reading.eval Term.eval
    refine (ihl hin ht).bind fun W₁ v w n₁ σ₁ hs₁ ht₁ hv => ?_
    refine (ihr (hin.mono hs₁) ht₁).bind fun W₂ v' w' n₂ σ₂ hs₂ ht₂ hv' => ?_
    exact .ofExcept ht₂ ((hv.mono hs₂).binary hv' op)
  | @unary op _ _ _ ih =>
    unfold Reading.eval Term.eval
    refine (ih hin ht).bind fun W₁ v w n₁ σ₁ hs₁ ht₁ hv => ?_
    exact .ofExcept ht₁ (hv.unary op)
  | @compare op _ _ _ _ _ _ ihl ihr =>
    unfold Reading.eval Term.eval
    refine (ihl hin ht).bind fun W₁ v w n₁ σ₁ hs₁ ht₁ hv => ?_
    refine (ihr (hin.mono hs₁) ht₁).bind fun W₂ v' w' n₂ σ₂ hs₂ ht₂ hv' => ?_
    rw [Related.compare_eq ht₂.inj (hv.mono hs₂) hv' op]
    exact (Agrees.same _ ht₂).bind fun W₃ b _ n₃ σ₃ _ ht₃ e => e ▸ .pure ht₃ (.data (.bool b))
  | @logical op _ _ _ _ _ _ ihl ihr =>
    unfold Reading.eval Term.eval
    refine (ihl hin ht).bind fun W₁ v w n₁ σ₁ hs₁ ht₁ hv => ?_
    rw [hv.akin.toBool_eq]
    refine (Agrees.same _ ht₁).bind fun W₂ b _ n₂ σ₂ hs₂ ht₂ e => ?_
    subst e
    have hright := agrees_truth (ihr ((hin.mono hs₁).mono hs₂) ht₂)
    cases op <;> cases b
    · exact .pure ht₂ (.data (.bool false))
    · exact hright
    · exact hright
    · exact .pure ht₂ (.data (.bool true))
  | cond _ _ _ ihc ihy ihn =>
    unfold Reading.eval Term.eval
    refine (ihc hin ht).bind fun W₁ v w n₁ σ₁ hs₁ ht₁ hv => ?_
    rw [hv.akin.toBool_eq]
    refine (Agrees.same _ ht₁).bind fun W₂ b _ n₂ σ₂ hs₂ ht₂ e => ?_
    subst e
    have hin₂ := (hin.mono hs₁).mono hs₂
    cases b with
    | true => exact ihy hin₂ ht₂
    | false => exact ihn hin₂ ht₂
  | call _ hlen _ ihf ihas =>
    unfold Reading.eval Term.eval
    refine (ihf hin ht).bind fun W₁ v w n₁ σ₁ hs₁ ht₁ hv => ?_
    cases hv.peers with
    | data d =>
      cases d with
      | function x => exact x.elim
      | _ => exact .fail _ ht₁
    | @function f g _ =>
      have hall := agrees_evalAll hlen (fun a a' ha W n σ hin ht => ihas a a' ha hin ht)
        (hin.mono hs₁) ht₁
      exact hall.bind fun W₂ vs ws n₂ σ₂ hs₂ ht₂ hvs =>
        hcall W₂ f g vs ws n₂ σ₂ (hv.mono hs₂) hvs ht₂

end

/-! ## Calls -/

/-- Under one list of names, a name finds values of the same position. -/
theorem exists_lookup_zip {α β : Type} {R : α → β → Prop} {ids : List LocalId} {vs : List α}
    {ws : List β} (h : List.Forall₂ R vs ws) (hlen : vs.length = ids.length) {k : LocalId}
    (hk : k ∈ ids) (ρ : List (LocalId × α)) :
    ∃ v w, (ids.zip vs ++ ρ).lookup k = some v ∧ (ids.zip ws).lookup k = some w ∧ R v w := by
  induction h generalizing ids with
  | nil =>
    obtain rfl := List.length_eq_zero_iff.mp hlen.symm
    cases hk
  | @cons v w vs ws hr _ ih =>
    cases ids with
    | nil => cases hlen
    | cons id ids =>
      simp only [List.zip_cons_cons, List.cons_append, List.lookup_cons]
      by_cases he : k = id
      · simp only [he, beq_self_eq_true]
        exact ⟨v, w, rfl, rfl, hr⟩
      · simp only [beq_eq_false_iff_ne.mpr he]
        exact ih (Nat.succ.inj hlen) ((List.mem_cons.mp hk).resolve_left he)

theorem lookup_zip_append {α : Type} {ids : List LocalId} {k : LocalId} (hk : k ∉ ids)
    (vs : List α) (ρ : List (LocalId × α)) : (ids.zip vs ++ ρ).lookup k = ρ.lookup k := by
  induction ids generalizing vs with
  | nil => rfl
  | cons id ids ih =>
    cases vs with
    | nil => rfl
    | cons v vs =>
      rw [List.mem_cons, not_or] at hk
      simp only [List.zip_cons_cons, List.cons_append, List.lookup_cons,
        beq_eq_false_iff_ne.mpr hk.1]
      exact ih hk.2 vs

/-- A capture stands for the same when parameters of other names are added. -/
theorem Capture.Denotes.add {x : Capture} {v : Datum Lexical} (h : x.Denotes S ρ v)
    {ids : List LocalId} (hx : ∀ id, x = .loc id → id ∉ ids) (vs : List (Datum Lexical)) :
    x.Denotes S (ids.zip vs ++ ρ) v := by
  cases x with
  | loc id => exact (lookup_zip_append (hx id rfl) vs ρ).trans h
  | args => exact h
  | var name => exact h

/-- Entering a function whose captured values are in a carrier. -/
theorem exists_enter {vars : String → Ty → Prop} {E : Images} {id : ScopeId} {im : Image}
    {c : Carried} {f : Closure} (hE : E.Sound vars) (hid : E id = some im)
    (hc : im.scope.carried = some c) (hf : im.code = .function f) :
    ∃ body, Translates vars E im.scope im.scope.body body ∧ ∀ label first vs,
      (Closure.bound label im.scope.params.length first f).enter vs =
        if vs.length = im.scope.params.length then
          .ok ((c.param.id, first) :: (im.scope.params.map Param.id).zip vs, body)
        else .error (.argumentCount im.scope.params.length vs.length) := by
  have hbuilt := (hE id im hid).2.built
  obtain ⟨x, code⟩ := im
  cases hf
  cases hbuilt with
  | @function _ l body htr =>
    have hcar : x.carried = some c := hc
    have hlocals : x.frame.locals = c.param.id :: x.params.map Param.id := by
      simp [Scope.frame, Frame.locals, hcar]
    refine ⟨body, htr, fun label first vs => ?_⟩
    rw [hlocals]
    simp only [Closure.enter, List.length_cons, List.length_map, Nat.add_right_cancel_iff,
      List.zip_cons_cons]
    split
    · rfl
    · rfl

section

variable {depth : Nat} {sc : Scope} {im : Image} {body : Expr} {vs : List (Datum Lexical)}
  {ws : List Value} (hS : S.Coherent)
  (ih : CallsAgree S (S.reading.invoke depth) (Closure.invoke depth)) (hd : S.Depicts sc im)
  (hargs : List.Forall₂ (Related S W) vs ws) (ht : Tracks S W n σ)

include hS ih hd hargs ht

/-- A call runs the body on both sides, or reports the number of arguments on both. -/
theorem agrees_enter (i : Identity) {g : Closure} (locals : List (LocalId × Value))
    (htr : Translates (fun name ty => ty = S.types name) S.images im.scope im.scope.body body)
    (henter : g.enter ws = if ws.length = sc.params.length then .ok (locals, body)
      else .error (.argumentCount sc.params.length ws.length))
    (hin : vs.length = sc.params.length →
      Inside S W im.scope ((sc.params.map Param.id).zip vs ++ ρ) ⟨locals, none⟩) :
    Agrees S (Related S) W (S.reading.invoke (depth + 1) (.mk i sc ρ) vs n)
      (g.invoke (depth + 1) ws σ) := by
  unfold Reading.invoke Closure.invoke
  rw [henter, ← hargs.length_eq]
  by_cases hlen : vs.length = sc.params.length
  · rw [if_pos hlen, if_pos hlen, ← hd.body]
    have hl := (hS.sound _ _ hd.image).2.layout
    exact agrees_eval hS ih hl htr (hin hlen) ht
  · rw [if_neg hlen, if_neg hlen]
    exact .fail _ ht

/-- The function of a scope that captures nothing. -/
theorem agrees_code {label : Label} (hc : sc.carried = none)
    (hr : im.code.Runs label (sc.params.map Param.id) body) :
    Agrees S (Related S) W (S.reading.invoke (depth + 1) (.mk (.shared sc.id) sc []) vs n)
      ((Closure.code label (sc.params.map Param.id) body).invoke (depth + 1) ws σ) := by
  have htr := (hS.sound _ _ hd.image).2.built.translates_of_runs hr
  refine agrees_enter hS ih hd hargs ht _ ((sc.params.map Param.id).zip ws) htr ?_ ?_
  · simp only [Closure.enter, List.length_map]
  · intro hlen
    constructor
    · intro p hp
      rw [hd.params] at hp
      exact exists_lookup_zip hargs (by simpa using hlen) (List.mem_map_of_mem hp) []
    · intro c hcar
      rw [hd.carried, hc] at hcar
      cases hcar

/-- A function whose captured values are in a carrier. -/
theorem agrees_bound {k : Nat} {c : Carried} {f : Closure} {label : Label} {first : Value}
    {xs : List (Datum Lexical)} {ys : List Value} (hc : sc.carried = some c)
    (hf : im.code = .function f) (hst : Stores c.layout.segments ys first)
    (hden : List.Forall₂ (fun x v => x.value.Denotes S ρ v) c.env.slots xs)
    (hxy : List.Forall₂ (Related S W) xs ys) :
    Agrees S (Related S) W (S.reading.invoke (depth + 1) (.mk (.fresh k) sc ρ) vs n)
      ((Closure.bound label sc.params.length first f).invoke (depth + 1) ws σ) := by
  have hcar : im.scope.carried = some c := hd.carried.trans hc
  have hown := hS.carrier _ im c hd.image hcar
  have hcap := fun x => hS.captured _ im c x hd.image hcar
  obtain ⟨body, htr, henter⟩ := exists_enter hS.sound hd.image hcar hf
  rw [hd.params] at hown hcap henter
  refine agrees_enter hS ih hd hargs ht _ _ htr (henter label first ws) fun hlen => ⟨?_, ?_⟩
  · intro p hmem
    have hmem : p ∈ sc.params := hd.params ▸ hmem
    have hid := List.mem_map_of_mem (f := Param.id) hmem
    have hne : p.id ≠ c.param.id := fun e => hown (e ▸ hid)
    simp only [List.lookup_cons, beq_eq_false_iff_ne.mpr hne]
    exact exists_lookup_zip hargs (by simpa using hlen) hid ρ
  · intro c' hc'
    obtain rfl := Option.some.inj (hcar.symm.trans hc')
    refine ⟨first, xs, ys, by simp, hst, ?_, hxy⟩
    obtain ⟨hlen', hzip⟩ := List.forall₂_iff_zip.mp hden
    refine List.forall₂_iff_zip.mpr ⟨hlen', fun hmem => (hzip hmem).add ?_ vs⟩
    exact hcap _ (List.of_mem_zip hmem).1

end

/-- Related functions agree on related arguments, however deep calls may nest. -/
theorem agrees_invoke (hS : S.Coherent) (depth : Nat) :
    CallsAgree S (S.reading.invoke depth) (Closure.invoke depth) := by
  induction depth with
  | zero =>
    intro W f g vs ws n σ _ _ ht
    exact .error (.refl W) ht
  | succ depth ih =>
    intro W f g vs ws n σ h hargs ht
    generalize hv : Datum.function f = v, hw : Datum.function g = w at h
    cases h with
    | data d =>
      cases d with
      | function x => exact x.elim
      | _ => cases hv
    | shared hd hc hr _ =>
      cases hv
      cases hw
      exact agrees_code hS ih hd hargs ht hc hr
    | fresh hd hc hf _ hst hden hlen hrel =>
      cases hv
      cases hw
      refine agrees_bound hS ih hd hargs ht hc hf hst hden ?_
      exact List.forall₂_iff_zip.mpr ⟨hlen, fun hmem => hrel _ hmem⟩

/-! ## Clients -/

/-- Clients that have related functions see the same, whatever they apply. -/
theorem play_eq (hS : S.Coherent) (script : List Application) {W : World} {n : Nat} {σ : Store}
    {fs : List Lexical} {gs : List Closure}
    (hfs : List.Forall₂ (fun f g => Related S W (.function f) (.function g)) fs gs)
    (ht : Tracks S W n σ) :
    play S.reading.invoke script fs n = play Closure.invoke script gs σ := by
  refine play_congr (R := fun W f g => Related S W (.function f) (.function g))
    (T := Tracks S) ?_ ?_ ?_ script hfs ht
  · intro W f g h
    obtain ⟨_, e, harity, -⟩ := h.peers.exists_function
    cases e
    exact harity
  · intro W n σ f g f' g' ht h h'
    exact Related.same_eq ht.inj h h'
  · intro W n σ f g ds depth ht h
    have hargs : List.Forall₂ (Related S W) (ds.map Datum.lift) (ds.map Datum.lift) := by
      rw [List.forall₂_map_left_iff, List.forall₂_map_right_iff]
      exact List.forall₂_same.mpr fun d _ => .data d
    have hrun := agrees_invoke hS depth W f g _ _ n σ h hargs ht
    generalize S.reading.invoke depth f (ds.map Datum.lift) n = x,
      Closure.invoke depth g (ds.map Datum.lift) σ = y at hrun
    cases hrun with
    | error hs ht => exact ⟨_, fun _ _ h => h.mono hs, ht, .error _⟩
    | ok hs ht hr => exact ⟨_, fun _ _ h => h.mono hs, ht, .ok hr.peers_related⟩

end ClosureConversion
