import ClosureConversion.Proofs.FrontEnd
import ClosureConversion.Proofs.Layouts
import Mathlib.Data.List.Forall2

/-!
What conversion makes of a body.

`Image` is a closed scope with the code that it was converted to, and `Images` tells the images that
exist.  `Image.Stands parent im e` says that the expression `e` makes the function of `im` when it
runs inside `parent`; `Translates` relates a body to its code: a captured value is read from the
carrier, and the token of a scope is replaced by what stands for the scope.

`resolveBody_isOk`: the body of a front end is translated by `Plan.resolveBody`, once the scopes that
it uses have images.  `Translates.verify`: translated code passes the checks.
-/

namespace ClosureConversion

namespace Lists

variable {α β : Type} {as : List α} {bs : List β}

theorem exists_mem_zip_left (h : as.length = bs.length) {a : α} (ha : a ∈ as) :
    ∃ b, (a, b) ∈ as.zip bs := by
  rw [← List.map_fst_zip (Nat.le_of_eq h)] at ha
  obtain ⟨⟨_, b⟩, hb, rfl⟩ := List.mem_map.mp ha
  exact ⟨b, hb⟩

theorem exists_mem_zip_right (h : as.length = bs.length) {b : β} (hb : b ∈ bs) :
    ∃ a, (a, b) ∈ as.zip bs := by
  rw [← List.map_snd_zip (Nat.le_of_eq h.symm)] at hb
  obtain ⟨⟨a, _⟩, ha, rfl⟩ := List.mem_map.mp hb
  exact ⟨a, ha⟩

theorem exists_forall₂ {R : α → β → Prop} (h : ∀ a ∈ as, ∃ b, R a b) :
    ∃ bs, List.Forall₂ R as bs := by
  induction as with
  | nil => exact ⟨[], .nil⟩
  | cons a as ih =>
    rw [List.forall_mem_cons] at h
    obtain ⟨b, hb⟩ := h.1
    obtain ⟨bs, hbs⟩ := ih h.2
    exact ⟨b :: bs, .cons hb hbs⟩

theorem exists_lookup {α β : Type} [BEq α] [LawfulBEq α] {l : List (α × β)} {a : α}
    (h : a ∈ l.map Prod.fst) : ∃ b, l.lookup a = some b ∧ (a, b) ∈ l := by
  cases hl : l.lookup a with
  | none =>
    obtain ⟨p, hp, rfl⟩ := List.mem_map.mp h
    simpa using List.lookup_eq_none_iff.mp hl p hp
  | some b =>
    obtain ⟨l₁, l₂, rfl, -⟩ := List.lookup_eq_some_iff.mp hl
    exact ⟨b, rfl, by simp⟩

theorem lookup_map_snd {κ : Type} [BEq κ] (f : α → β) (l : List (κ × α)) (k : κ) :
    (l.map fun p => (p.1, f p.2)).lookup k = (l.lookup k).map f := by
  induction l with
  | nil => rfl
  | cons p l ih =>
    obtain ⟨k', v⟩ := p
    simp only [List.map_cons, List.lookup_cons]
    cases k == k' with
    | true => rfl
    | false => exact ih

end Lists

/-! ## What the surroundings supply -/

namespace Frame

/-- The parameters that code in these surroundings can read. -/
def locals : Frame → List LocalId
  | .root => []
  | .scope _ params carried => ((carried.map Carried.param).toList ++ params).map Param.id

def isRoot : Frame → Bool
  | .root => true
  | .scope .. => false

/-- `e` has the value of the slot in these surroundings. -/
inductive Gives : Frame → Slot → Expr → Prop
  | own {id : ScopeId} {params : List Param} {carried : Option Carried} {x : Slot} {v : LocalId} :
      x.owner = id → x.value = .loc v → v ∈ params.map Param.id →
      Gives (.scope id params carried) x (.loc v)
  | forwarded {id : ScopeId} {params : List Param} {c : Carried} {x : Slot} {i : Nat} {e : Expr} :
      x.owner ≠ id → c.env.indexOf? x.value = some i → c.read i = .ok e →
      Gives (.scope id params (some c)) x e
  | args {x : Slot} : x.value = .args → Gives .root x .args
  | var {x : Slot} {name : String} : x.value = .var name → Gives .root x (.var name x.ty)

theorem gives_iff (f : Frame) (x : Slot) (e : Expr) :
    f.Gives x e ↔ ∃ o, f.origin? x = some o ∧ f.supply x o = .ok e := by
  constructor
  · intro h
    cases h with
    | @own _ _ _ _ v ho hv hp => exact ⟨.direct v, by simp [origin?, ho, hv, hp], rfl⟩
    | @forwarded _ _ _ _ i _ ho hi hr => exact ⟨.forwarded i, by simp [origin?, ho, hi], hr⟩
    | args hv => exact ⟨.root, by simp [origin?, hv], by simp [supply, hv]⟩
    | var hv => exact ⟨.root, by simp [origin?, hv], by simp [supply, hv]⟩
  · rintro ⟨o, ho, hs⟩
    cases f with
    | root =>
      cases hv : x.value with
      | loc v => simp [origin?, hv] at ho
      | args =>
        obtain rfl : Origin.root = o := by simpa [origin?, hv] using ho
        obtain rfl : Term.args = e := by simpa [supply, hv] using hs
        exact .args hv
      | var name =>
        obtain rfl : Origin.root = o := by simpa [origin?, hv] using ho
        obtain rfl : Term.var name x.ty = e := by simpa [supply, hv] using hs
        exact .var hv
    | scope id params carried =>
      simp only [origin?] at ho
      split at ho
      · next hown =>
        split at ho
        · next v hv =>
          split at ho
          · next hmem =>
            cases ho
            cases hs
            exact .own hown hv hmem
          · cases ho
        · cases ho
      · next hown =>
        obtain ⟨i, hi, rfl⟩ := Option.map_eq_some_iff.mp ho
        obtain ⟨c, rfl, hi⟩ := Option.bind_eq_some_iff.mp hi
        exact .forwarded hown hi hs

theorem mapM_eq_ok_iff {ε α β : Type} (f : α → Except ε β) (xs : List α) (ys : List β) :
    xs.mapM f = .ok ys ↔ List.Forall₂ (fun x y => f x = .ok y) xs ys := by
  induction xs generalizing ys with
  | nil =>
    constructor
    · intro h
      cases h
      exact .nil
    · intro h
      cases h
      rfl
  | cons x xs ih =>
    rw [List.mapM_cons]
    constructor
    · intro h
      cases hx : f x with
      | error e => simp [hx, bind, Except.bind] at h
      | ok y =>
        cases hxs : xs.mapM f with
        | error e => simp [hx, hxs, bind, Except.bind] at h
        | ok rest =>
          simp only [hx, hxs, bind, Except.bind, pure, Except.pure, Except.ok.injEq] at h
          subst h
          exact .cons hx ((ih rest).mp hxs)
    · intro h
      cases h with
      | cons hx hxs => simp [hx, (ih _).mpr hxs, bind, Except.bind, pure, Except.pure]

theorem origin_eq_ok_iff (f : Frame) (child : ScopeId) (x : Slot) (o : Origin) :
    f.origin child x = .ok o ↔ f.origin? x = some o := by
  unfold origin
  cases f.origin? x <;> simp

/-- The supplied expressions have the values of the slots, one by one. -/
theorem supplies_eq_ok_iff (f : Frame) (child : ScopeId) (env : Env) (values : List Expr) :
    f.supplies child env = .ok values ↔ List.Forall₂ f.Gives env.slots values := by
  have main : ∀ (slots : List Slot) (values : List Expr),
      (∃ os, slots.mapM (f.origin child) = .ok os ∧
        (slots.zip os).mapM (fun p => f.supply p.1 p.2) = .ok values) ↔
      List.Forall₂ f.Gives slots values := by
    intro slots
    simp only [mapM_eq_ok_iff, origin_eq_ok_iff]
    induction slots with
    | nil =>
      intro values
      constructor
      · rintro ⟨os, -, h⟩
        cases h
        exact .nil
      · intro h
        cases h
        exact ⟨[], .nil, .nil⟩
    | cons x slots ih =>
      intro values
      constructor
      · rintro ⟨os, hos, h⟩
        cases hos with
        | cons ho hos =>
          cases h with
          | cons hs h => exact .cons ((gives_iff f x _).mpr ⟨_, ho, hs⟩) ((ih _).mp ⟨_, hos, h⟩)
      · intro h
        cases h with
        | cons hx h =>
          obtain ⟨o, ho, hs⟩ := (gives_iff f x _).mp hx
          obtain ⟨os, hos, hvs⟩ := (ih _).mpr h
          exact ⟨o :: os, .cons ho hos, .cons hs hvs⟩
  rw [← main]
  unfold supplies origins
  cases env.slots.mapM (f.origin child) with
  | error b => simp [bind, Except.bind]
  | ok os => simp [bind, Except.bind]

theorem supplies_isOk {f : Frame} {env : Env} (child : ScopeId)
    (h : ∀ x ∈ env.slots, ∃ e, f.Gives x e) :
    ∃ values, f.supplies child env = .ok values ∧ List.Forall₂ f.Gives env.slots values := by
  obtain ⟨values, hv⟩ := Lists.exists_forall₂ h
  exact ⟨values, (supplies_eq_ok_iff f child env values).mpr hv, hv⟩

/-- What the surroundings supply can be checked there. -/
theorem Gives.verify {f : Frame} {x : Slot} {e : Expr} (h : f.Gives x e) (known : Label → Bool) :
    e.verify known f.locals f.isRoot = .ok () := by
  cases h with
  | own _ _ hp => simp [Term.verify, locals, hp]
  | forwarded _ _ hr => simp [Layout.verify_access hr, Term.verify, locals]
  | args _ => rfl
  | var _ => rfl

end Frame

/-! ## Images -/

/-- The code of a scope: a function, or a lambda that is compiled when it is first met. -/
inductive Code where
  | function (f : Closure)
  | lambda (label : Label) (body : Expr)

def Code.label : Code → Label
  | .function f => f.label
  | .lambda label _ => label

structure Image where
  scope : Scope
  code : Code

/-- The images of the scopes that have one. -/
abbrev Images := ScopeId → Option Image

namespace Images

/-- All images of the first are images of the second. -/
def Sub (E E' : Images) : Prop := ∀ id im, E id = some im → E' id = some im

def add (E : Images) (id : ScopeId) (im : Image) : Images := fun x => if x = id then some im else E x

theorem Sub.refl (E : Images) : Sub E E := fun _ _ h => h

theorem Sub.trans {E₁ E₂ E₃ : Images} (h : Sub E₁ E₂) (k : Sub E₂ E₃) : Sub E₁ E₃ :=
  fun id im e => k id im (h id im e)

theorem sub_add {E : Images} {id : ScopeId} (h : E id = none) (im : Image) :
    Sub E (E.add id im) := by
  intro x im' hx
  unfold add
  rw [if_neg, hx]
  rintro rfl
  rw [h] at hx
  cases hx

end Images

/-- `e` makes the function of the image inside `parent`. -/
inductive Image.Stands (parent : Frame) : Image → Expr → Prop
  | function {sc : Scope} {f : Closure} :
      sc.carried = none → Stands parent ⟨sc, .function f⟩ (.delegate sc.id f)
  | lambda {sc : Scope} {label : Label} {body : Expr} :
      sc.carried = none → Stands parent ⟨sc, .lambda label body⟩ (.lambda label sc.params body)
  | bind {sc : Scope} {c : Carried} {f : Closure} {values : List Expr} :
      sc.carried = some c → List.Forall₂ parent.Gives c.env.slots values →
      Stands parent ⟨sc, .function f⟩
        (.bind (Layout.chain values c.layout.head c.layout.rest) f sc.params.length)

/-- `e` reads the value from the carrier of the scope. -/
def Scope.Fetches (sc : Scope) (v : Capture) (e : Expr) : Prop :=
  ∃ c i, sc.carried = some c ∧ c.env.indexOf? v = some i ∧ c.read i = .ok e

/-- The second expression is the code for the first one in the body of `sc`. -/
inductive Translates (vars : String → Ty → Prop) (E : Images) (sc : Scope) : Expr → Expr → Prop
  | own {p : Param} : p ∈ sc.params → Translates vars E sc (.loc p.id) (.loc p.id)
  | captured {v : LocalId} {e : Expr} :
      sc.Fetches (.loc v) e → Translates vars E sc (.loc v) e
  | argument {i : Nat} {ty : Ty} {e : Expr} :
      sc.Fetches .args e → Translates vars E sc (.arg .args i ty) (.arg e i ty)
  | var {name : String} {ty : Ty} {e : Expr} :
      vars name ty → sc.Fetches (.var name) e → Translates vars E sc (.var name ty) e
  | placeholder {c : ScopeId} {im : Image} {e : Expr} :
      E c = some im → im.Stands sc.frame e → Translates vars E sc (.placeholder c) e
  | delegate {c : ScopeId} {im : Image} {f : Closure} :
      E c = some im → im.scope.carried = none → im.code = .function f →
      Translates vars E sc (.delegate c f) (.delegate c f)
  | literal {e : Expr} : e.isPlain = true → e.children = [] → Translates vars E sc e e
  | binary {op : BinaryOp} {l r l' r' : Expr} :
      Translates vars E sc l l' → Translates vars E sc r r' →
      Translates vars E sc (.binary op l r) (.binary op l' r')
  | unary {op : UnaryOp} {e e' : Expr} :
      Translates vars E sc e e' → Translates vars E sc (.unary op e) (.unary op e')
  | compare {op : Comparison} {l r l' r' : Expr} :
      Translates vars E sc l l' → Translates vars E sc r r' →
      Translates vars E sc (.compare op l r) (.compare op l' r')
  | logical {op : Connective} {l r l' r' : Expr} :
      Translates vars E sc l l' → Translates vars E sc r r' →
      Translates vars E sc (.logical op l r) (.logical op l' r')
  | cond {c y n c' y' n' : Expr} :
      Translates vars E sc c c' → Translates vars E sc y y' → Translates vars E sc n n' →
      Translates vars E sc (.cond c y n) (.cond c' y' n')
  | call {f f' : Expr} {as as' : List Expr} :
      Translates vars E sc f f' → as.length = as'.length →
      (∀ a a', (a, a') ∈ as.zip as' → Translates vars E sc a a') →
      Translates vars E sc (.call f as) (.call f' as')

namespace Translates

variable {vars : String → Ty → Prop} {E E' : Images} {sc : Scope} {src tgt : Expr}

theorem mono (h : Translates vars E sc src tgt) (hE : E.Sub E') :
    Translates vars E' sc src tgt := by
  induction h with
  | own h => exact .own h
  | captured h => exact .captured h
  | argument h => exact .argument h
  | var hty h => exact .var hty h
  | placeholder h hs => exact .placeholder (hE _ _ h) hs
  | delegate h hs hf => exact .delegate (hE _ _ h) hs hf
  | literal hp hc => exact .literal hp hc
  | binary _ _ hl hr => exact .binary hl hr
  | unary _ he => exact .unary he
  | compare _ _ hl hr => exact .compare hl hr
  | logical _ _ hl hr => exact .logical hl hr
  | cond _ _ _ hc hy hn => exact .cond hc hy hn
  | call _ hlen _ hf has => exact .call hf hlen has

/-- The scopes that the body uses have images. -/
theorem image_of_uses (h : Translates vars E sc src tgt) {c : ScopeId} (hc : src.Uses c) :
    ∃ im, E c = some im := by
  have split : ∀ {e : Expr}, e.Uses c →
      e.scopeToken? = some c ∨ ∃ a ∈ e.children, a.Uses c := by
    rintro e ⟨n, hn, ht⟩
    rcases (Term.mem_nodes e n).mp hn with rfl | ⟨a, ha, hn⟩
    · exact .inl ht
    · exact .inr ⟨a, ha, n, hn, ht⟩
  induction h with
  | placeholder h _ =>
    rcases split hc with ht | ⟨a, ha, -⟩
    · cases ht
      exact ⟨_, h⟩
    · cases ha
  | delegate h _ _ =>
    rcases split hc with ht | ⟨a, ha, -⟩
    · cases ht
      exact ⟨_, h⟩
    · cases ha
  | own _ | captured _ | var _ _ =>
    rcases split hc with ht | ⟨a, ha, -⟩
    · cases ht
    · cases ha
  | argument _ =>
    rcases split hc with ht | ⟨a, ha, huse⟩
    · cases ht
    · obtain rfl := List.mem_singleton.mp ha
      rcases split huse with ht | ⟨a, ha, -⟩
      · cases ht
      · cases ha
  | literal hp hchild =>
    rcases split hc with ht | ⟨a, ha, -⟩
    · rw [Term.scopeToken?_of_isPlain hp] at ht
      cases ht
    · rw [hchild] at ha
      cases ha
  | unary _ ih =>
    rcases split hc with ht | ⟨a, ha, huse⟩
    · cases ht
    · obtain rfl := List.mem_singleton.mp ha
      exact ih huse
  | binary _ _ ihl ihr | compare _ _ ihl ihr | logical _ _ ihl ihr =>
    rcases split hc with ht | ⟨a, ha, huse⟩
    · cases ht
    · simp only [Term.children, List.mem_cons, List.not_mem_nil, or_false] at ha
      rcases ha with rfl | rfl
      · exact ihl huse
      · exact ihr huse
  | cond _ _ _ ihc ihy ihn =>
    rcases split hc with ht | ⟨a, ha, huse⟩
    · cases ht
    · simp only [Term.children, List.mem_cons, List.not_mem_nil, or_false] at ha
      rcases ha with rfl | rfl | rfl
      · exact ihc huse
      · exact ihy huse
      · exact ihn huse
  | call _ hlen _ ihf ihas =>
    rcases split hc with ht | ⟨a, ha, huse⟩
    · cases ht
    · rcases List.mem_cons.mp ha with rfl | ha
      · exact ihf huse
      · obtain ⟨a', ha⟩ := Lists.exists_mem_zip_left hlen ha
        exact ihas a a' ha huse

end Translates

/-! ## Checks on translated code -/

/-- Most parameters that the scope may declare: what it captures takes the place of one. -/
def Scope.limit (sc : Scope) : Nat :=
  match sc.carried with
  | none => Closure.maxArity
  | some _ => Closure.maxBoundArity

def Scope.Fits (sc : Scope) : Prop := sc.params.length ≤ sc.limit

/-- The code of the image is the translation of its scope's body. -/
inductive Image.Built (vars : String → Ty → Prop) (E : Images) : Image → Prop
  | function {sc : Scope} {label : Label} {body : Expr} :
      Translates vars E sc sc.body body →
      Built vars E ⟨sc, .function (.code label sc.frame.locals body)⟩
  | lambda {sc : Scope} {label : Label} {body : Expr} :
      sc.carried = none → Translates vars E sc sc.body body →
      (∀ known, body.verify known sc.frame.locals false = .ok ()) →
      Built vars E ⟨sc, .lambda label body⟩

theorem Image.Built.translates {vars : String → Ty → Prop} {E : Images} {im : Image}
    (h : im.Built vars E) : ∃ body, Translates vars E im.scope im.scope.body body := by
  cases h with
  | function ht => exact ⟨_, ht⟩
  | lambda _ ht _ => exact ⟨_, ht⟩

structure Image.Sound (vars : String → Ty → Prop) (E : Images) (im : Image) : Prop where
  fits : im.scope.Fits
  layout : ∀ c, im.scope.carried = some c → Segments 0 c.env.types c.layout.segments
  built : im.Built vars E

def Images.Sound (vars : String → Ty → Prop) (E : Images) : Prop :=
  ∀ id im, E id = some im → im.scope.id = id ∧ im.Sound vars E

theorem Image.Sound.mono {vars : String → Ty → Prop} {E E' : Images} {im : Image}
    (h : im.Sound vars E) (hE : E.Sub E') : im.Sound vars E' where
  fits := h.fits
  layout := h.layout
  built := by
    cases h.built with
    | function ht => exact .function (ht.mono hE)
    | lambda hc ht hv => exact .lambda hc (ht.mono hE) hv

/-- A captured value can be read from the carrier. -/
theorem Scope.exists_fetches {sc : Scope}
    (hl : ∀ c, sc.carried = some c → Segments 0 c.env.types c.layout.segments) {v : Capture}
    (hv : sc.env.contains v = true) : ∃ e, sc.Fetches v e := by
  cases hc : sc.carried with
  | none =>
    rw [Scope.env_of_static hc] at hv
    exact absurd hv (Env.not_contains_empty v)
  | some c =>
    rw [Scope.env_of_carried hc] at hv
    obtain ⟨i, hi⟩ := Option.isSome_iff_exists.mp hv
    have hlt : i < c.env.types.length := by
      rw [Env.types, List.length_map]
      exact (List.findIdx?_eq_some_iff_getElem.mp hi).1
    obtain ⟨e, he⟩ := Layout.access_isOk (hl c hc) hlt (.loc c.param.id)
    exact ⟨e, c, i, hc, hi, he⟩

theorem Scope.Fetches.verify {sc : Scope} {v : Capture} {e : Expr} (h : sc.Fetches v e)
    (known : Label → Bool) : e.verify known sc.frame.locals false = .ok () := by
  obtain ⟨c, i, hc, -, hr⟩ := h
  rw [Layout.verify_access hr]
  simp [Term.verify, Scope.frame, Frame.locals, hc]

theorem Image.Stands.verify {vars : String → Ty → Prop} {E : Images} {parent : Frame} {im : Image}
    {e : Expr} (h : im.Stands parent e) (hs : im.Sound vars E) (known : Label → Bool) :
    e.verify known parent.locals parent.isRoot = .ok () := by
  have hfits := hs.fits
  cases h with
  | function _ => rfl
  | @lambda sc label body hc =>
    have hlocals : sc.frame.locals = sc.params.map Param.id := by
      simp [Scope.frame, Frame.locals, hc]
    cases hs.built with
    | lambda _ _ hv =>
      simp only [Scope.Fits, Scope.limit, hc] at hfits
      have hv := hv known
      rw [hlocals] at hv
      unfold Term.verify
      split
      · rfl
      · exact hv
  | @bind sc c f values hc hg =>
    cases hs.built with
    | function _ =>
      simp only [Scope.Fits, Scope.limit, hc] at hfits
      have harity : sc.frame.locals.length = sc.params.length + 1 := by
        simp [Scope.frame, Frame.locals, hc]
      unfold Term.verify
      rw [if_pos ⟨hfits, harity⟩]
      refine Layout.verify_chain known _ _ (hs.layout c hc) (by simp [Env.types, hg.length_eq]) ?_
      intro e he
      obtain ⟨x, hx⟩ := Lists.exists_mem_zip_right hg.length_eq he
      exact ((List.forall₂_iff_zip.mp hg).2 hx).verify known

theorem Translates.verify {vars : String → Ty → Prop} {E : Images} {sc : Scope} {src tgt : Expr}
    (h : Translates vars E sc src tgt) (hE : E.Sound vars) (known : Label → Bool) :
    tgt.verify known sc.frame.locals false = .ok () := by
  induction h with
  | @own p hp =>
    have hmem : p.id ∈ sc.frame.locals := by
      simp only [Scope.frame, Frame.locals]
      exact List.mem_map_of_mem (List.mem_append_right _ hp)
    simp [Term.verify, hmem]
  | captured h => exact h.verify known
  | argument h => exact h.verify known
  | var _ h => exact h.verify known
  | placeholder h hs => exact hs.verify (hE _ _ h).2 known
  | delegate _ _ _ => rfl
  | @literal e hp hc => cases e <;> simp_all [Term.isPlain, Term.children, Term.verify]
  | unary _ he => exact he
  | binary _ _ hl hr | compare _ _ hl hr | logical _ _ hl hr =>
    simp only [Term.verify, hl, hr]
    rfl
  | cond _ _ _ hc hy hn =>
    simp only [Term.verify, hc, hy, hn]
    rfl
  | @call f f' as as' _ hlen _ hf has =>
    have hall : Term.verifyAll known sc.frame.locals false as' = .ok () := by
      refine Term.verifyAll_eq_ok.mpr fun a' ha' => ?_
      obtain ⟨a, ha⟩ := Lists.exists_mem_zip_right hlen ha'
      exact has a a' ha
    simp only [Term.verify, hf, hall]
    rfl

/-! ## Translating a body -/

namespace Term

variable {f : Expr → Except Breach (Option Expr)} {e : Expr}

theorem replaceM_of_some {r : Expr} (h : f e = .ok (some r)) : e.replaceM f = .ok r := by
  unfold replaceM
  rw [h]
  rfl

theorem replaceM_arg {v v' : Expr} {i : Nat} {ty : Ty} (h : f (.arg v i ty) = .ok none)
    (hv : v.replaceM f = .ok v') : (arg v i ty).replaceM f = .ok (.arg v' i ty) := by
  unfold replaceM
  rw [h]
  simp only [hv]
  rfl

/-- A leaf that is not replaced is kept. -/
theorem replaceM_leaf (h : f e = .ok none) (hc : e.children = []) (hcall : ∀ g as, e ≠ .call g as)
    (hnew : ∀ s fs, e ≠ .newCarrier s fs) : e.replaceM f = .ok e := by
  unfold replaceM
  rw [h]
  cases e <;> simp_all [children] <;> rfl

theorem replaceAllM_eq_ok {as as' : List Expr}
    (h : List.Forall₂ (fun a a' => a.replaceM f = .ok a') as as') :
    replaceAllM f as = .ok as' := by
  induction h with
  | nil => rfl
  | cons ha _ ih =>
    unfold replaceAllM
    simp only [ha, ih]
    rfl

end Term

namespace Plan

variable (sc : Scope) (converted : ScopeId → Option Expr) {n : Expr}

theorem resolveNode_of_not_captured (hp : n.scopeToken? = none)
    (hv : ∀ v, n.capture? = some v → ¬ sc.env.contains v = true) :
    resolveNode sc.carried converted n = .ok none := by
  have hne : ∀ c, n ≠ .placeholder c := by
    rintro c rfl
    cases hp
  unfold resolveNode
  split
  · next c => exact absurd rfl (hne c)
  · split
    · next c v hc hcap =>
      have hno := hv v hcap
      rw [Scope.env_of_carried hc, Env.contains] at hno
      rw [Option.not_isSome_iff_eq_none.mp hno]
      rfl
    · rfl

theorem resolveNode_of_fetches {v : Capture} {e : Expr} (hn : n.capture? = some v)
    (hf : sc.Fetches v e) : resolveNode sc.carried converted n = .ok (some e) := by
  obtain ⟨c, i, hc, hi, hr⟩ := hf
  have hne : ∀ s, n ≠ .placeholder s := by
    rintro s rfl
    cases hn
  unfold resolveNode
  split
  · next s => exact absurd rfl (hne s)
  · simp only [hc, hn, hi, Option.mapM_some, hr]
    rfl

/-- The body of a front end is translated, once the scopes that it uses have images. -/
theorem resolveBody_isOk {vars : String → Ty → Prop} {E : Images} {t : ScopeTable}
    (uses : ScopeId → Prop) (hown : ∀ p ∈ sc.params, ¬ sc.env.contains (.loc p.id) = true)
    (hl : ∀ c, sc.carried = some c → Segments 0 c.env.types c.layout.segments)
    (hdef : ∀ c child, uses c → c ∈ sc.children → t.get? c = some child → child.compiled = none →
      ∃ e im, converted c = some e ∧ E c = some im ∧ im.Stands sc.frame e)
    (hcomp : ∀ c child f, t.get? c = some child → child.compiled = some f →
      ∃ im, E c = some im ∧ im.scope.carried = none ∧ im.code = .function f)
    {src : Expr} (h : FrontBody (Offered vars t sc.params sc.env sc.children) src)
    (hu : ∀ c, src.Uses c → uses c) :
    ∃ tgt, resolveBody sc.carried converted src = .ok tgt ∧ Translates vars E sc src tgt := by
  unfold resolveBody
  induction h with
  | @given e h =>
    cases h with
    | @own p hp =>
      have hk := resolveNode_of_not_captured sc converted (n := .loc p.id) rfl
        (by rintro v ⟨⟩; exact hown p hp)
      exact ⟨_, Term.replaceM_leaf hk rfl (by simp) (by simp), .own hp⟩
    | captured hv =>
      obtain ⟨e, hf⟩ := Scope.exists_fetches hl hv
      exact ⟨e, Term.replaceM_of_some (resolveNode_of_fetches sc converted rfl hf), .captured hf⟩
    | @argument i ty hv hi =>
      obtain ⟨e, hf⟩ := Scope.exists_fetches hl hv
      have he := resolveNode_of_fetches sc converted (n := .args) rfl hf
      have hk := resolveNode_of_not_captured sc converted (n := .arg .args i ty)
        rfl (by rintro v ⟨⟩)
      exact ⟨_, Term.replaceM_arg hk (Term.replaceM_of_some he), .argument hf⟩
    | var hv hty =>
      obtain ⟨e, hf⟩ := Scope.exists_fetches hl hv
      exact ⟨e, Term.replaceM_of_some (resolveNode_of_fetches sc converted rfl hf), .var hty hf⟩
    | @deferred c child hc hg hn =>
      have huse : uses c := hu c ⟨_, Term.self_mem_nodes _, rfl⟩
      obtain ⟨e, im, he, hE, hs⟩ := hdef c child huse hc hg hn
      exact ⟨e, Term.replaceM_of_some (by simp [resolveNode, he]), .placeholder hE hs⟩
    | @compiled c child f hc hg hf =>
      obtain ⟨im, hE, hs, hcode⟩ := hcomp c child f hg hf
      have hk : resolveNode sc.carried converted (.delegate c f) = .ok none := by
        unfold resolveNode
        cases sc.carried <;> rfl
      exact ⟨_, Term.replaceM_leaf hk rfl (by simp) (by simp), .delegate hE hs hcode⟩
  | @plain e hp _ ih =>
    have hk := resolveNode_of_not_captured sc converted (n := e)
      (Term.scopeToken?_of_isPlain hp) (by simp [Term.capture?_of_isPlain hp])
    have ih : ∀ a ∈ e.children, ∃ a', a.replaceM (resolveNode sc.carried converted) = .ok a' ∧
        Translates vars E sc a a' := by
      intro a ha
      refine ih a ha fun c hc => hu c ?_
      obtain ⟨n, hn, ht⟩ := hc
      exact ⟨n, (Term.mem_nodes e n).mpr (.inr ⟨a, ha, hn⟩), ht⟩
    cases e with
    | void | bool _ | int _ | number _ | string _ =>
      exact ⟨_, Term.replaceM_leaf hk rfl (by simp) (by simp), .literal rfl rfl⟩
    | unary op e =>
      obtain ⟨e', he, ht⟩ := ih e (by simp [Term.children])
      refine ⟨.unary op e', ?_, .unary ht⟩
      unfold Term.replaceM
      simp only [hk, he, bind, Except.bind]
      rfl
    | binary op l r =>
      obtain ⟨l', hl, htl⟩ := ih l (by simp [Term.children])
      obtain ⟨r', hr, htr⟩ := ih r (by simp [Term.children])
      refine ⟨.binary op l' r', ?_, .binary htl htr⟩
      unfold Term.replaceM
      simp only [hk, hl, hr, bind, Except.bind]
      rfl
    | compare op l r =>
      obtain ⟨l', hl, htl⟩ := ih l (by simp [Term.children])
      obtain ⟨r', hr, htr⟩ := ih r (by simp [Term.children])
      refine ⟨.compare op l' r', ?_, .compare htl htr⟩
      unfold Term.replaceM
      simp only [hk, hl, hr, bind, Except.bind]
      rfl
    | logical op l r =>
      obtain ⟨l', hl, htl⟩ := ih l (by simp [Term.children])
      obtain ⟨r', hr, htr⟩ := ih r (by simp [Term.children])
      refine ⟨.logical op l' r', ?_, .logical htl htr⟩
      unfold Term.replaceM
      simp only [hk, hl, hr, bind, Except.bind]
      rfl
    | cond c y n =>
      obtain ⟨c', hc, htc⟩ := ih c (by simp [Term.children])
      obtain ⟨y', hy, hty⟩ := ih y (by simp [Term.children])
      obtain ⟨n', hn, htn⟩ := ih n (by simp [Term.children])
      refine ⟨.cond c' y' n', ?_, .cond htc hty htn⟩
      unfold Term.replaceM
      simp only [hk, hc, hy, hn, bind, Except.bind]
      rfl
    | call g as =>
      obtain ⟨g', hg, htg⟩ := ih g (by simp [Term.children])
      obtain ⟨as', has⟩ := Lists.exists_forall₂ fun a ha => ih a (List.mem_cons_of_mem g ha)
      have hzip := List.forall₂_iff_zip.mp has
      refine ⟨.call g' as', ?_, .call htg hzip.1 fun a a' ha => (hzip.2 ha).2⟩
      have hall := Term.replaceAllM_eq_ok (has.imp fun _ _ h => h.1)
      unfold Term.replaceM
      simp only [hk, hg, hall, bind, Except.bind]
      rfl
    | _ => cases hp

end Plan

end ClosureConversion
