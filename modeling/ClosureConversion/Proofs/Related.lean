import ClosureConversion.Proofs.Carriers
import ClosureConversion.Proofs.Conversion
import ClosureConversion.Proofs.Operators

/-!
Values of the direct reading beside values of compiled code.

A `Setting` is a scope tree with the code made from it and the inputs of a run; a `World` tells which
label a function of the reading has in compiled code.  `Related` says when two values are the same:
they are the same data, or functions of one scope whose captured values are related.  Related values
are akin, so the operators do the same to them: `Related.unary`, `Related.binary`,
`Related.compare_eq`.
-/

namespace ClosureConversion

/-! ## Related values -/

/-- A scope tree, the code made from it, the types of the variables, and the inputs of a run. -/
structure Setting where
  table : ScopeTable
  images : Images
  types : String → Ty
  inputs : PlainInputs

def Setting.reading (S : Setting) : Reading := ⟨S.table, S.inputs, true⟩

/-- The labels of the functions that were met so far. -/
abbrev World := Identity → Option Label

/-- The later world knows what the earlier one does. -/
def World.Sub (W W' : World) : Prop := ∀ i l, W i = some l → W' i = some l

/-- The value is what the capture stands for where the parameters have these values. -/
def Capture.Denotes (S : Setting) (ρ : List (LocalId × Datum Lexical)) :
    Capture → Datum Lexical → Prop
  | .loc id, v => ρ.lookup id = some v
  | .args, v => v = (Datum.array S.inputs.arguments).lift
  | .var name, v => ∃ d, S.inputs.named.lookup name = some d ∧ v = d.lift ∧
      d.conforms (S.types name) = true

/-- The image is of this scope. -/
structure Setting.Depicts (S : Setting) (sc : Scope) (im : Image) : Prop where
  image : S.images sc.id = some im
  id : im.scope.id = sc.id
  params : im.scope.params = sc.params
  body : im.scope.body = sc.body
  carried : im.scope.carried = sc.carried

/-- A function with this label, over these parameters, runs the code as `body`. -/
inductive Code.Runs (label : Label) (params : List LocalId) (body : Expr) : Code → Prop
  | function : Runs label params body (.function (.code label params body))
  | lambda {l : Label} : Runs label params body (.lambda l body)

theorem Image.Built.translates_of_runs {vars : String → Ty → Prop} {E : Images} {im : Image}
    {label : Label} {params : List LocalId} {body : Expr} (h : im.Built vars E)
    (hr : im.code.Runs label params body) : Translates vars E im.scope im.scope.body body := by
  cases h with
  | function ht =>
    cases hr
    exact ht
  | lambda _ ht _ =>
    cases hr
    exact ht

/-- The same data, or functions of the same scope. -/
inductive Related (S : Setting) (W : World) : Datum Lexical → Value → Prop
  | data (d : Datum Empty) : Related S W d.lift d.lift
  | shared {sc : Scope} {im : Image} {label : Label} {body : Expr} :
      S.Depicts sc im → sc.carried = none →
      im.code.Runs label (sc.params.map Param.id) body → W (.shared sc.id) = some label →
      Related S W (.function (.mk (.shared sc.id) sc []))
        (.function (.code label (sc.params.map Param.id) body))
  | fresh {n : Nat} {sc : Scope} {im : Image} {c : Carried} {f : Closure} {label : Label}
      {first : Value} {ρ : List (LocalId × Datum Lexical)} {vs : List (Datum Lexical)}
      {ws : List Value} :
      S.Depicts sc im → sc.carried = some c → im.code = .function f →
      W (.fresh n) = some label → Stores c.layout.segments ws first →
      List.Forall₂ (fun x v => x.value.Denotes S ρ v) c.env.slots vs → vs.length = ws.length →
      (∀ p ∈ vs.zip ws, Related S W p.1 p.2) →
      Related S W (.function (.mk (.fresh n) sc ρ))
        (.function (.bound label sc.params.length first f))

namespace Related

variable {S : Setting} {W W' : World} {v v' : Datum Lexical} {w w' : Value}

theorem mono (h : Related S W v w) (hW : W.Sub W') : Related S W' v w := by
  induction h with
  | data d => exact .data d
  | shared hd hc hr hl => exact .shared hd hc hr (hW _ _ hl)
  | fresh hd hc hf hl hst hden hlen _ ih => exact .fresh hd hc hf (hW _ _ hl) hst hden hlen ih

/-- The same data, or functions of as many parameters whose label is known. -/
theorem peers (h : Related S W v w) :
    Peers (fun f g => f.arity = g.arity ∧ W f.identity = some g.label) v w := by
  cases h with
  | data d => exact .data d
  | shared _ _ _ hl => exact .function ⟨by simp [Lexical.arity, Closure.arity], hl⟩
  | fresh _ _ _ hl _ _ _ _ => exact .function ⟨rfl, hl⟩

theorem peers_related (h : Related S W v w) :
    Peers (fun f g => Related S W (.function f) (.function g)) v w := by
  cases h.peers with
  | data d => exact .data d
  | function _ => exact .function h

theorem exists_function {f : Lexical} (h : Related S W (.function f) w) :
    ∃ g, w = .function g := by
  obtain ⟨g, hg, -⟩ := h.peers.exists_function
  exact ⟨g, hg⟩

theorem akin (h : Related S W v w) : Akin v w := h.peers.akin

theorem conforms_eq (h : Related S W v w) (ty : Ty) : v.conforms ty = w.conforms ty :=
  h.peers.conforms_eq (fun _ _ hr => hr.1) ty

theorem checked (h : Related S W v w) (ty : Ty) :
    Alike (Related S W) (v.checked ty) (w.checked ty) :=
  h.akin.checked h (h.conforms_eq ty)

/-- Results that are the same data on both sides. -/
theorem alike_lift {r : Except Fault (Datum Empty)} {x : Except Fault (Datum Lexical)}
    {y : Except Fault Value} (hx : x = r.map Datum.lift) (hy : y = r.map Datum.lift) :
    Alike (Related S W) x y := by
  subst hx hy
  cases r with
  | ok d => exact .ok (.data d)
  | error f => exact .error f

theorem unary (h : Related S W v w) (op : UnaryOp) :
    Alike (Related S W) (op.apply v) (op.apply w) := by
  obtain ⟨r, -, hv, hw⟩ := h.akin.unary op
  exact alike_lift hv hw

theorem binary (h : Related S W v w) (h' : Related S W v' w') (op : BinaryOp) :
    Alike (Related S W) (op.apply v v') (op.apply w w') := by
  obtain ⟨r, -, hv, hw⟩ := h.akin.binary h'.akin op
  exact alike_lift hv hw

section

variable (hW : ∀ i j l, W i = some l → W j = some l → i = j)

include hW

theorem same_identity {f f' : Lexical} {g g' : Closure} (h : W f.identity = some g.label)
    (h' : W f'.identity = some g'.label) : Callable.same f f' = Callable.same g g' := by
  show (f.identity == f'.identity) = (g.label == g'.label)
  rw [Bool.eq_iff_iff, beq_iff_eq, beq_iff_eq]
  constructor
  · intro he
    rw [he, h'] at h
    exact (Option.some.inj h).symm
  · intro he
    exact hW _ _ _ h (he ▸ h')

theorem same_eq (h : Related S W v w) (h' : Related S W v' w') : v.same v' = w.same w' :=
  h.peers.same_eq h'.peers fun _ _ _ _ hr hr' => same_identity hW hr.2 hr'.2

theorem compare_eq (h : Related S W v w) (h' : Related S W v' w') (op : Comparison) :
    op.apply v v' = op.apply w w' :=
  h.akin.compare_eq h'.akin (same_eq hW h h') op

end

end Related

end ClosureConversion
