import ClosureConversion.Proofs.Environment

/-!
Positions in captured environments.

A value's position in an environment is the field of the carrier that holds it, and code is written
with that field in it.  So the position must be the same ever after, whatever else is captured.
`Env.Grows` is the relation between an environment and those that come from it by requests and by
forwarding; all that is said here is about it.

* `Grows.keeps`, `Grows.nodup`: slots are added at the end only, and no value has two.
* `indexOf?_of_kept`, `slot?_of_kept`: so a value keeps its position and its slot.
* `Grows.matched`: where no slot is put in by hand and no scope claims what the caller owns, the names
  noted beside the slots are those of the slots.  Forwarding updates the two separately: that it leaves
  out no slot of a noted name rests on who owns such slots.
-/

namespace ClosureConversion

namespace Env

/-- `env'` comes from `env` by requests of this kind, and by forwarding to scopes of this kind from
children that come from nothing in the same way. -/
inductive Grows (ok : Request → Prop) (scopes : ScopeId → Prop) : Env → Env → Prop
  | refl {env : Env} : Grows ok scopes env env
  | request {env env' : Env} {r : Request} :
      Grows ok scopes env env' → ok r → Grows ok scopes env (env'.request r)
  | forward {env env' child : Env} {scope : ScopeId} :
      Grows ok scopes env env' → Grows ok scopes {} child → scopes scope →
      Grows ok scopes env (env'.forward child scope)

variable {ok : Request → Prop} {scopes : ScopeId → Prop} {env env' child : Env} {v : Capture}

/-! ## The list of slots -/

/-- What adding a slot does to the list of slots, every operation does. -/
theorem Grows.slots_rel {R : List Slot → List Slot → Prop} (refl : ∀ l, R l l)
    (trans : ∀ {l₁ l₂ l₃}, R l₁ l₂ → R l₂ l₃ → R l₁ l₃)
    (insert : ∀ (env : Env) (s : Slot), R env.slots (env.insert s).slots)
    (h : Grows ok scopes env env') : R env.slots env'.slots := by
  have all : ∀ (slots : List Slot) (env : Env), R env.slots (slots.foldl Env.insert env).slots := by
    intro slots
    induction slots with
    | nil => exact fun env => refl env.slots
    | cons s slots ih => exact fun env => trans (insert env s) (ih (env.insert s))
  induction h with
  | refl => exact refl _
  | @request env env' r _ _ ih =>
    have hslots : (env'.request r).slots = (env'.insert r.toSlot).slots := by
      rw [request_eq, slots_insert, slots_insert, contains_note, slots_note]
    rw [hslots]
    exact trans ih (insert env' r.toSlot)
  | forward _ _ _ ih _ => exact trans ih (all _ _)

theorem keeps_insert (env : Env) (s : Slot) : env.slots <+: (env.insert s).slots := by
  rw [slots_insert]
  split
  · exact List.prefix_rfl
  · exact List.prefix_append _ _

theorem Grows.keeps (h : Grows ok scopes env env') : env.slots <+: env'.slots :=
  h.slots_rel (fun _ => List.prefix_rfl) List.IsPrefix.trans keeps_insert

theorem nodup_insert (env : Env) (s : Slot) (h : (env.slots.map Slot.value).Nodup) :
    ((env.insert s).slots.map Slot.value).Nodup := by
  rw [slots_insert]
  split
  · exact h
  · next hc =>
    rw [List.map_append, List.map_singleton, List.nodup_append]
    refine ⟨h, by simp, ?_⟩
    intro a ha b hb hab
    obtain ⟨x, hx, rfl⟩ := List.mem_map.mp ha
    obtain rfl := List.mem_singleton.mp hb
    exact hc ((env.contains_iff s.value).mpr ⟨x, hx, hab⟩)

theorem Grows.nodup (h : Grows ok scopes env env') :
    (env.slots.map Slot.value).Nodup → (env'.slots.map Slot.value).Nodup :=
  h.slots_rel (R := fun l l' => (l.map Slot.value).Nodup → (l'.map Slot.value).Nodup)
    (fun _ => id) (fun h k => k ∘ h) nodup_insert

/-! ## Positions -/

theorem indexOf?_of_kept (h : env.slots <+: env'.slots) {i : Nat} (hi : env.indexOf? v = some i) :
    env'.indexOf? v = some i := by
  obtain ⟨rest, hrest⟩ := h
  unfold indexOf? at hi ⊢
  rw [← hrest, List.findIdx?_append, hi]
  rfl

theorem slot?_of_kept (h : env.slots <+: env'.slots) {s : Slot} (hs : env.slot? v = some s) :
    env'.slot? v = some s := by
  obtain ⟨rest, hrest⟩ := h
  unfold slot? at hs ⊢
  rw [← hrest, List.find?_append, hs]
  rfl

/-- The slot of a value is the one at its position. -/
theorem slot?_eq_bind (env : Env) (v : Capture) :
    env.slot? v = (env.indexOf? v).bind fun i => env.slots[i]? :=
  List.find?_eq_bind_findIdx?_getElem?

theorem contains_eq_isSome_slot? (env : Env) (v : Capture) :
    env.contains v = (env.slot? v).isSome := by
  rw [Bool.eq_iff_iff, Option.isSome_iff_ne_none, Ne, slot?_eq_none_iff, Decidable.not_not]

theorem getElem?_of_indexOf? {i : Nat} (h : env.indexOf? v = some i) :
    ∃ s, env.slots[i]? = some s ∧ s.value = v := by
  obtain ⟨hlt, hv, -⟩ := List.findIdx?_eq_some_iff_getElem.mp h
  exact ⟨env.slots[i], List.getElem?_eq_getElem hlt, by simpa using hv⟩

/-- Where no value has two slots, a value's position is the only place with a slot for it. -/
theorem indexOf?_eq_some_iff (hd : (env.slots.map Slot.value).Nodup) {i : Nat} :
    env.indexOf? v = some i ↔ ∃ s, env.slots[i]? = some s ∧ s.value = v := by
  refine ⟨getElem?_of_indexOf?, ?_⟩
  rintro ⟨s, hs, rfl⟩
  have hc := contains_of_mem (List.mem_of_getElem? hs)
  obtain ⟨j, hj⟩ := Option.isSome_iff_exists.mp hc
  obtain ⟨x, hx, hv⟩ := getElem?_of_indexOf? hj
  have hlt : i < (env.slots.map Slot.value).length := by
    rw [List.length_map]
    exact (List.getElem?_eq_some_iff.mp hs).1
  have hij : i = j := (List.getElem?_inj hlt hd).mp (by simp [hs, hx, hv])
  rw [hij, hj]

/-- A request tells the position of what it asks for. -/
theorem indexOf?_capture (env : Env) (r : Request) :
    (env.capture r).1.indexOf? r.toSlot.value = some (env.capture r).2 := by
  unfold capture place
  cases h : (env.note r).indexOf? r.toSlot.value with
  | some i => exact h
  | none =>
    unfold indexOf? at h ⊢
    rw [List.findIdx?_append, h]
    simp

/-! ## What is noted beside the slots -/

/-- The notes match the slots: a name is noted iff it has a slot, an index only if the argument
vector has one.  All these slots are the caller's. -/
structure Matched (env : Env) : Prop where
  owner : ∀ s ∈ env.slots, (∀ id, s.value ≠ .loc id) → s.owner = rootScope
  names : ∀ name, name ∈ env.names ↔ env.contains (.var name) = true
  indices : ∀ i ∈ env.indices, env.contains .args = true

namespace Matched

theorem empty : ({} : Env).Matched where
  owner _ hs := nomatch hs
  names name := by simp [not_contains_empty]
  indices i hi := absurd hi (SortedSet.not_mem_empty i)

theorem request (h : env.Matched) {r : Request} (hr : ∀ s, r ≠ .slot s) : (env.request r).Matched where
  owner s hs hv := by
    rcases (mem_slots_request env r s).mp hs with hs | ⟨-, rfl⟩
    · exact h.owner s hs hv
    · cases r with
      | loc id ty owner => exact absurd rfl (hv id)
      | argument index => rfl
      | var name ty => rfl
      | slot s => exact absurd rfl (hr s)
  names name := by
    rw [names_request, contains_request, ← h.names]
    cases r with
    | var x ty => simp [note, Request.toSlot, or_comm, eq_comm]
    | slot s => exact absurd rfl (hr s)
    | _ => simp [note, Request.toSlot]
  indices i hi := by
    rw [indices_request] at hi
    rw [contains_request]
    cases r with
    | argument index => exact .inr rfl
    | _ => exact .inl (h.indices i hi)

/-- What the caller owns is all taken over. -/
theorem contains_forward (hc : child.Matched) {scope : ScopeId} (hs : scope ≠ rootScope)
    (hv : ∀ id, v ≠ .loc id) :
    (env.forward child scope).contains v = true ↔
      env.contains v = true ∨ child.contains v = true := by
  rw [Env.contains_forward, child.contains_iff]
  refine or_congr_right ⟨?_, ?_⟩
  · rintro ⟨s, hmem, -, rfl⟩
    exact ⟨s, hmem, rfl⟩
  · rintro ⟨s, hmem, rfl⟩
    have howner := hc.owner s hmem hv
    exact ⟨s, hmem, fun he => hs (he.symm.trans howner), rfl⟩

theorem forward (h : env.Matched) (hc : child.Matched) {scope : ScopeId} (hs : scope ≠ rootScope) :
    (env.forward child scope).Matched where
  owner s hmem hv := by
    rcases mem_slots_forward hmem with hmem | ⟨hmem, -⟩
    · exact h.owner s hmem hv
    · exact hc.owner s hmem hv
  names name := by
    rw [mem_names_forward, hc.contains_forward (v := .var name) hs nofun, h.names, hc.names, or_comm]
  indices i hi := by
    rw [hc.contains_forward (v := .args) hs nofun]
    rcases (mem_indices_forward env child scope i).mp hi with hi | hi
    · exact .inr (hc.indices i hi)
    · exact .inl (h.indices i hi)

end Matched

theorem Grows.matched (hok : ∀ r, ok r → ∀ s, r ≠ .slot s) (hscopes : ∀ id, scopes id → id ≠ rootScope)
    (h : Grows ok scopes env env') (he : env.Matched) : env'.Matched := by
  induction h with
  | refl => exact he
  | request _ hr ih => exact (ih he).request (hok _ hr)
  | forward _ _ hs ih ihc => exact (ih he).forward (ihc .empty) (hscopes _ hs)

/-- In every environment that comes about by capturing and forwarding:

* no two slots have the same value;
* whatever happens next, the slots stay at the front of the list, and so a value that has a position
  and a slot keeps them;
* a request answers the position of what it asks for;
* the three ways to look a value up agree;
* if no slot is put in by hand, and nothing is forwarded to the caller's own scope, the names noted are
  those of the slots for variables, and indices are noted only if there is a slot for the argument
  vector.  Hence inclusion, which does not look at the names, is inclusion of the names as well. -/
theorem positions_stable (h : Grows ok scopes {} env) :
    (env.slots.map Slot.value).Nodup ∧
    (∀ env', Grows ok scopes env env' →
      env.slots <+: env'.slots ∧
      (∀ v i, env.indexOf? v = some i → env'.indexOf? v = some i) ∧
      ∀ v s, env.slot? v = some s → env'.slot? v = some s) ∧
    (∀ r, (env.capture r).1 = env.request r ∧
      ∃ s, (env.request r).slots[(env.capture r).2]? = some s ∧ s.value = r.toSlot.value) ∧
    (∀ v, env.contains v = (env.slot? v).isSome ∧
      env.slot? v = (env.indexOf? v).bind (fun i => env.slots[i]?) ∧
      ∀ i, env.indexOf? v = some i ↔ ∃ s, env.slots[i]? = some s ∧ s.value = v) ∧
    ((∀ r, ok r → ∀ s, r ≠ .slot s) → (∀ id, scopes id → id ≠ rootScope) →
      (∀ name, name ∈ env.names ↔ ∃ s ∈ env.slots, s.value = .var name) ∧
      ((∃ i, i ∈ env.indices) → ∃ s ∈ env.slots, s.value = .args) ∧
      ∀ other, Grows ok scopes {} other → env.isSubset other = true →
        ∀ name ∈ env.names, name ∈ other.names) := by
  have hd : (env.slots.map Slot.value).Nodup := h.nodup List.nodup_nil
  refine ⟨hd, fun env' h' => ?_, fun r => ?_, fun v => ?_, fun hok hscopes => ?_⟩
  · have hp := h'.keeps
    exact ⟨hp, fun v i => indexOf?_of_kept hp, fun v s => slot?_of_kept hp⟩
  · exact ⟨rfl, getElem?_of_indexOf? (env.indexOf?_capture r)⟩
  · exact ⟨env.contains_eq_isSome_slot? v, env.slot?_eq_bind v, fun i => indexOf?_eq_some_iff hd⟩
  · have hn : env.Matched := h.matched hok hscopes .empty
    refine ⟨fun name => ?_, ?_, fun other ho hsub name hname => ?_⟩
    · rw [hn.names, contains_iff]
    · rintro ⟨i, hi⟩
      exact (env.contains_iff .args).mp (hn.indices i hi)
    · obtain ⟨s, hs, hv⟩ := (env.contains_iff (.var name)).mp ((hn.names name).mp hname)
      have hc := ((isSubset_iff env other).mp hsub).1 s hs
      rw [hv] at hc
      exact ((ho.matched hok hscopes .empty).names name).mpr hc

/-- Scope 2 takes over what its child reads, but for its own parameter, and asks for more.  The variable
that came second stays there, with the type that came with it, though it is asked for at another. -/
theorem positions_stable_forwarding :
    let ok : Request → Prop := fun r => ∀ s, r ≠ .slot s
    let scopes : ScopeId → Prop := fun id => id ≠ rootScope
    let child := ofRequests [.loc 1 .int 1, .loc 5 .number 2, .var "limit" .int]
    let env := ({} : Env).forward child 2
    let env' := (env.request (.argument 0)).request (.var "limit" .string)
    Grows ok scopes {} env ∧ Grows ok scopes env env' ∧
    env'.indexOf? (.var "limit") = some 1 ∧
    env'.slot? (.var "limit") = some ⟨.var "limit", .int, rootScope⟩ ∧
    env.isSubset env' = true ∧ "limit" ∈ env'.names := by
  intro ok scopes child env env'
  have hchild : Grows ok scopes {} child :=
    ((Grows.refl.request nofun).request nofun).request nofun
  have henv : Grows ok scopes {} env := Grows.refl.forward hchild (by decide)
  have hlater : Grows ok scopes env env' :=
    (Grows.refl.request (r := .argument 0) nofun).request (r := .var "limit" .string) nofun
  have henv' : Grows ok scopes {} env' :=
    (henv.request (r := .argument 0) nofun).request (r := .var "limit" .string) nofun
  obtain ⟨-, hkeeps, -, -, hnotes⟩ := positions_stable henv
  obtain ⟨-, hindex, hslot⟩ := hkeeps env' hlater
  obtain ⟨-, -, hnames⟩ := hnotes (fun _ h => h) (fun _ h => h)
  have hsub : env.isSubset env' = true := by decide
  exact ⟨henv, hlater, hindex _ 1 (by decide), hslot _ _ (by decide), hsub,
    hnames env' henv' hsub "limit" (by decide)⟩

end Env

end ClosureConversion
