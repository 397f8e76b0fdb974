import Mathlib.Logic.Function.Basic
import SketchSolver.Proofs.EquationSystem.Positions

/-!
# What an operation leaves as it is

Most operations on a system give values to some of its unknowns and change nothing else of what a
later phase reads. `Frame moved s s'` says so: the tables of `s'` are those of `s`, but for the
values of unknowns whose state and stage are in `moved`, and for marks and the linearization.
Frames compose (`Frame.trans`), and under a frame every handle is resolved as before
(`Frame.position?_eq`) and every unknown outside `moved` has its value (`Frame.value_eq`).
-/

namespace SketchSolver

/-- An unknown is as it was, but for marks, and for its value if its state and stage are in
`moved`. -/
structure Param.Kept (moved : ParamState → Nat → Prop) (p p' : Param α) : Prop where
  handle : p'.handle = p.handle
  root : p'.root = p.root
  state : p'.state = p.state
  stage : p'.stage = p.stage
  value : ¬ moved p.state p.stage → p'.value = p.value

/-- An unknown that has not changed is kept, whatever may move. -/
theorem Param.Kept.refl (moved : ParamState → Nat → Prop) (p : Param α) : Param.Kept moved p p :=
  ⟨rfl, rfl, rfl, rfl, fun _ => rfl⟩

/-- An unknown that is kept twice is kept. -/
theorem Param.Kept.trans {moved : ParamState → Nat → Prop} {p q r : Param α}
    (hpq : Param.Kept moved p q) (hqr : Param.Kept moved q r) : Param.Kept moved p r where
  handle := hqr.handle.trans hpq.handle
  root := hqr.root.trans hpq.root
  state := hqr.state.trans hpq.state
  stage := hqr.stage.trans hpq.stage
  value hm := (hqr.value (by rwa [hpq.state, hpq.stage])).trans (hpq.value hm)

/-- A pointwise relation is kept where one element on the right is changed within it. -/
theorem forall₂_modify {R : β → γ → Prop} {f : γ → γ} :
    ∀ {l : List β} {m : List γ} {i : Nat}, List.Forall₂ R l m →
      (∀ x y, l[i]? = some x → m[i]? = some y → R x y → R x (f y)) →
      List.Forall₂ R l (m.modify i f)
  | _, _, i, .nil, _ => by
    rw [List.modify_nil]
    exact .nil
  | _, _, 0, .cons hxy hrest, hf => .cons (hf _ _ rfl rfl hxy) hrest
  | _, _, i + 1, .cons hxy hrest, hf =>
    .cons hxy (forall₂_modify hrest fun x y hx hy => hf x y hx hy)

/-- Pointwise related lists are related at every position. -/
theorem forall₂_getElem? {R : β → γ → Prop} :
    ∀ {l : List β} {m : List γ}, List.Forall₂ R l m → ∀ {i : Nat} {x : β}, l[i]? = some x →
      ∃ y, m[i]? = some y ∧ R x y
  | _, _, .cons hR _, 0, _, hx => by cases hx; exact ⟨_, rfl, hR⟩
  | _, _, .cons _ hrest, _ + 1, _, hx => forall₂_getElem? hrest hx

/-- Pointwise related lists are related at every position of the second one. -/
theorem forall₂_getElem?_of {R : β → γ → Prop} {l : List β} {m : List γ}
    (h : List.Forall₂ R l m) {i : Nat} {y : γ} (hy : m[i]? = some y) :
    ∃ x, l[i]? = some x ∧ R x y := by
  obtain ⟨x, hx, hR⟩ := forall₂_getElem? h.flip hy
  exact ⟨x, hx, hR⟩

/-- Every element of a list is related to one of a list that is pointwise related to it. -/
theorem forall₂_mem {R : β → γ → Prop} {l : List β} {m : List γ} (h : List.Forall₂ R l m) {x : β}
    (hx : x ∈ l) : ∃ y ∈ m, R x y := by
  obtain ⟨i, hi⟩ := List.getElem?_of_mem hx
  obtain ⟨y, hy, hR⟩ := forall₂_getElem? h hi
  exact ⟨y, List.mem_of_getElem? hy, hR⟩

/-- Every member of the second of two pointwise related lists is related to one of the first. -/
theorem forall₂_mem_of {R : β → γ → Prop} {l : List β} {m : List γ} (h : List.Forall₂ R l m)
    {y : γ} (hy : y ∈ m) : ∃ x ∈ l, R x y :=
  forall₂_mem h.flip hy

/-- Lists of one length are related pointwise if they are at every position. -/
theorem forall₂_of_getElem? {R : β → γ → Prop} :
    ∀ {l : List β} {m : List γ}, l.length = m.length →
      (∀ (i : Nat) x y, l[i]? = some x → m[i]? = some y → R x y) → List.Forall₂ R l m
  | [], [], _, _ => .nil
  | _ :: _, _ :: _, hlen, h =>
    .cons (h 0 _ _ rfl rfl) (forall₂_of_getElem? (Nat.succ.inj hlen) fun i _ _ hx hy =>
      h (i + 1) _ _ hx hy)
  | [], _ :: _, hlen, _ => nomatch hlen
  | _ :: _, [], hlen, _ => nomatch hlen

/-- Pointwise relations compose. -/
theorem forall₂_trans {R : β → β → Prop} (htrans : ∀ x y z, R x y → R y z → R x z) :
    ∀ {l m n : List β}, List.Forall₂ R l m → List.Forall₂ R m n → List.Forall₂ R l n
  | _, _, _, .nil, .nil => .nil
  | _, _, _, .cons hxy hlm, .cons hyz hmn =>
    .cons (htrans _ _ _ hxy hyz) (forall₂_trans htrans hlm hmn)

namespace EquationSystem

/-- The system is as it was, but for the values of unknowns whose state and stage are in `moved`,
and for the marks and the linearization. -/
structure Frame (moved : ParamState → Nat → Prop) (s s' : EquationSystem α) : Prop where
  settings : s'.settings = s.settings
  equations : s'.equations = s.equations
  dragged : s'.dragged = s.dragged
  foreign : s'.foreign = s.foreign
  elimination : s'.elimination = s.elimination
  params : List.Forall₂ (Param.Kept moved) s.params s'.params

variable {moved : ParamState → Nat → Prop} {s s' s'' : EquationSystem α}

namespace Frame

/-! ## Frames compose -/

/-- Nothing is moved where the tables are the same. -/
theorem of_eq (hset : s'.settings = s.settings) (heqs : s'.equations = s.equations)
    (hdr : s'.dragged = s.dragged) (hfor : s'.foreign = s.foreign)
    (helim : s'.elimination = s.elimination) (hps : s'.params = s.params) : Frame moved s s' where
  settings := hset
  equations := heqs
  dragged := hdr
  foreign := hfor
  elimination := helim
  params := by
    rw [hps]
    exact List.forall₂_same.2 fun p _ => .refl moved p

/-- A system is in a frame with itself. -/
theorem refl (moved : ParamState → Nat → Prop) (s : EquationSystem α) : Frame moved s s :=
  of_eq rfl rfl rfl rfl rfl rfl

/-- Two changes in one frame are a change in it. -/
theorem trans (h : Frame moved s s') (h' : Frame moved s' s'') : Frame moved s s'' where
  settings := h'.settings.trans h.settings
  equations := h'.equations.trans h.equations
  dragged := h'.dragged.trans h.dragged
  foreign := h'.foreign.trans h.foreign
  elimination := h'.elimination.trans h.elimination
  params := forall₂_trans (fun _ _ _ hpq hqr => hpq.trans hqr) h.params h'.params

/-- What moves less leaves more as it is. -/
theorem mono {moved' : ParamState → Nat → Prop} (hsub : ∀ st n, moved st n → moved' st n)
    (h : Frame moved s s') : Frame moved' s s' where
  settings := h.settings
  equations := h.equations
  dragged := h.dragged
  foreign := h.foreign
  elimination := h.elimination
  params := h.params.imp fun _ _ hk =>
    ⟨hk.handle, hk.root, hk.state, hk.stage, fun hm => hk.value fun hm' => hm (hsub _ _ hm')⟩

/-- Changing one unknown within the frame. -/
theorem updateParam {i : Nat} {f : Param α → Param α}
    (hf : ∀ p, s.params[i]? = some p → Param.Kept moved p (f p)) :
    Frame moved s (s.updateParam i f) where
  settings := rfl
  equations := rfl
  dragged := rfl
  foreign := rfl
  elimination := rfl
  params := forall₂_modify (refl moved s).params fun p p' hp hp' hk => by
    rw [hp] at hp'
    cases hp'
    exact hf p hp

/-! ## What a frame keeps -/

/-- A frame keeps the number of unknowns. -/
theorem length_eq (h : Frame moved s s') : s'.params.length = s.params.length :=
  h.params.length_eq.symm

/-- A frame keeps the handles and their order. -/
theorem handles_eq (h : Frame moved s s') :
    s'.params.map (·.handle) = s.params.map (·.handle) :=
  map_handle_eq (fun _ _ hk => hk.handle) h.params

/-- Handles that are distinct stay so under a frame. -/
theorem handlesDistinct (h : Frame moved s s') (hd : s.HandlesDistinct) : s'.HandlesDistinct :=
  hd.congr h.handles_eq

/-- A handle is resolved as before. -/
theorem position?_eq (h : Frame moved s s') : s'.position? = s.position? :=
  position?_congr h.handles_eq

/-- Under a frame the same handles are those of unknowns. -/
theorem isUnknown_eq (h : Frame moved s s') : s'.isUnknown = s.isUnknown :=
  isUnknown_congr h.handles_eq

/-- The unknown at a position before and after. -/
theorem kept (h : Frame moved s s') {i : Nat} {p : Param α} (hp : s.params[i]? = some p) :
    ∃ p', s'.params[i]? = some p' ∧ Param.Kept moved p p' :=
  forall₂_getElem? h.params hp

/-- The unknown at a position after and before. -/
theorem kept_of (h : Frame moved s s') {i : Nat} {p' : Param α} (hp' : s'.params[i]? = some p') :
    ∃ p, s.params[i]? = some p ∧ Param.Kept moved p p' :=
  forall₂_getElem?_of h.params hp'

/-- Every unknown is kept by one of the system after the change. -/
theorem kept_mem (h : Frame moved s s') {p : Param α} (hp : p ∈ s.params) :
    ∃ p' ∈ s'.params, Param.Kept moved p p' :=
  forall₂_mem h.params hp

/-- Every unknown after the change is one that has been kept. -/
theorem kept_of_mem (h : Frame moved s s') {p' : Param α} (hp' : p' ∈ s'.params) :
    ∃ p ∈ s.params, Param.Kept moved p p' :=
  forall₂_mem_of h.params hp'

/-- Expressions are written in slot form as before. -/
theorem slotForm_eq [Scalar α] (h : Frame moved s s') (e : Expr α) :
    s'.slotForm e = s.slotForm e := by
  unfold slotForm
  rw [h.position?_eq]

/-- A parameter keeps its value, unless it is an unknown that moves. -/
theorem value_eq [Scalar α] (h : Frame moved s s') {x : ParamHandle}
    (hx : ∀ p, s.param? x = some p → ¬ moved p.state p.stage) :
    s'.lookup.value x = s.lookup.value x := by
  have hparam? : ∀ t : EquationSystem α, t.param? x = (t.position? x).bind (t.params[·]?) :=
    fun _ => rfl
  simp only [lookup, hparam?, h.position?_eq, h.foreign]
  cases hi : s.position? x with
  | none => rfl
  | some i =>
    obtain ⟨p, hp, _⟩ := exists_of_position? hi
    obtain ⟨p', hp', hk⟩ := h.kept hp
    have hsp : s.param? x = some p := by rw [hparam?, hi]; exact hp
    simp only [Option.bind_some, hp, hp']
    exact hk.value (hx p hsp)

/-- A parameter keeps its value if no unknown of its handle moves. -/
theorem value_eq_of_forall [Scalar α] (h : Frame moved s s') {x : ParamHandle}
    (hx : ∀ p ∈ s.params, p.handle = x → ¬ moved p.state p.stage) :
    s'.lookup.value x = s.lookup.value x := by
  refine h.value_eq fun p hp => ?_
  have hmem : p ∈ s.params := by
    obtain ⟨i, _, hi⟩ := Option.bind_eq_some_iff.1 hp
    exact List.mem_of_getElem? hi
  exact hx p hmem (handle_of_param? hp)

end Frame

/-! ## Values by handle -/

/-- Parameters have the same values if the unknowns at every position have. -/
theorem lookup_value_congr [Scalar α] {R : Param α → Param α → Prop}
    (hR : ∀ p q, R p q → q.handle = p.handle ∧ q.value = p.value)
    (hparams : List.Forall₂ R s.params s'.params) (hforeign : s'.foreign = s.foreign) :
    s'.lookup.value = s.lookup.value := by
  have hparam? : ∀ t : EquationSystem α, ∀ x, t.param? x = (t.position? x).bind (t.params[·]?) :=
    fun _ _ => rfl
  have hpos : s'.position? = s.position? :=
    position?_congr (map_handle_eq (fun p q h => (hR p q h).1) hparams)
  funext x
  simp only [lookup, hparam?, hpos, hforeign]
  cases hi : s.position? x with
  | none => rfl
  | some i =>
    obtain ⟨p, hp, _⟩ := exists_of_position? hi
    obtain ⟨p', hp', hrel⟩ := forall₂_getElem? hparams hp
    simp only [Option.bind_some, hp, hp']
    exact (hR p p' hrel).2

/-- Handles that are distinct stay so when everything is cleared. -/
theorem HandlesDistinct.clearTags (hd : s.HandlesDistinct) : s.clearTags.HandlesDistinct := by
  refine hd.congr ?_
  simp [EquationSystem.clearTags, Function.comp_def]

/-- Clearing changes no value. -/
theorem lookup_clearTags [Scalar α] (s : EquationSystem α) :
    s.clearTags.lookup.value = s.lookup.value := by
  refine lookup_value_congr (R := fun p p' => p'.handle = p.handle ∧ p'.value = p.value)
    (fun _ _ h => h) ?_ rfl
  exact List.forall₂_map_right_iff.2 (List.forall₂_same.2 fun _ _ => ⟨rfl, rfl⟩)

/-! ## Values that can be meant -/

/-- Every unknown has the value it had, or one that can be meant. -/
def StaysReasonable [Scalar α] (s s' : EquationSystem α) : Prop :=
  List.Forall₂ (fun p p' : Param α =>
    p'.value = p.value ∨ s.settings.isUnreasonable p'.value = false) s.params s'.params

/-- The same unknowns have the values they had. -/
theorem StaysReasonable.of_eq [Scalar α] (h : s'.params = s.params) : StaysReasonable s s' := by
  unfold StaysReasonable
  rw [h]
  exact List.forall₂_same.2 fun _ _ => Or.inl rfl

/-- Where nothing moves, every unknown has the value it had. -/
theorem StaysReasonable.of_frame [Scalar α] (h : Frame (fun _ _ => False) s s') :
    StaysReasonable s s' :=
  h.params.imp fun _ _ hk => Or.inl (hk.value id)

/-- A value that stays, or becomes one that can be meant, does so in two steps as well. -/
theorem StaysReasonable.trans [Scalar α] (hset : s'.settings = s.settings)
    (h : StaysReasonable s s') (h' : StaysReasonable s' s'') : StaysReasonable s s'' := by
  unfold StaysReasonable at h'
  rw [hset] at h'
  refine forall₂_trans (fun p q r hpq hqr => ?_) h h'
  rcases hqr with heq | hreason
  · rw [heq]
    exact hpq
  · exact Or.inr hreason

/-- Giving one unknown a value that can be meant. -/
theorem StaysReasonable.updateParam [Scalar α] {i : Nat} {f : Param α → Param α}
    (hf : ∀ p, s.settings.isUnreasonable (f p).value = false) :
    StaysReasonable s (s.updateParam i f) :=
  forall₂_modify (List.forall₂_same.2 fun _ _ => Or.inl rfl) fun _ p _ _ _ => Or.inr (hf p)

/-! ## Changing one unknown -/

/-- What is the same of an unknown after a change of it is the same of the whole table. -/
theorem map_params_updateParam {i : Nat} {f : Param α → Param α} {g : Param α → β}
    (hf : ∀ p, g (f p) = g p) : (s.updateParam i f).params.map g = s.params.map g := by
  refine List.ext_getElem? fun j => ?_
  simp only [EquationSystem.updateParam, List.getElem?_map, List.getElem?_modify]
  split <;> simp [Function.comp_def, hf]

/-- A change of an unknown that keeps its handle keeps all handles. -/
theorem handles_updateParam {i : Nat} {f : Param α → Param α} (hf : ∀ p, (f p).handle = p.handle) :
    (s.updateParam i f).params.map (·.handle) = s.params.map (·.handle) :=
  map_params_updateParam hf

/-- Changing the unknown that a handle is resolved to gives the handle the new value, and changes
no other. -/
theorem lookup_updateParam [Scalar α] {i : Nat} {h : ParamHandle} {p : Param α}
    {f : Param α → Param α} (hi : s.position? h = some i) (hp : s.params[i]? = some p)
    (hf : ∀ p, (f p).handle = p.handle) :
    (s.updateParam i f).lookup.value = Function.update s.lookup.value h (f p).value := by
  have hparam? : ∀ t : EquationSystem α, ∀ x, t.param? x = (t.position? x).bind (t.params[·]?) :=
    fun _ _ => rfl
  have hpos := position?_congr (s := s) (handles_updateParam (i := i) hf)
  funext x
  simp only [lookup, hparam?, hpos]
  by_cases hx : x = h
  · subst hx
    rw [Function.update_self, hi]
    simp [updateParam, List.getElem?_modify, hp]
  · rw [Function.update_of_ne hx]
    cases hj : s.position? x with
    | none => rfl
    | some j =>
      have hij : i ≠ j := by
        rintro rfl
        exact hx (eq_of_position? hj hi)
      simp [updateParam, List.getElem?_modify, hij]

/-- Where handles are distinct, the handle of an unknown that is changed gets the new value, and no
other one does. -/
theorem HandlesDistinct.lookup_updateParam [Scalar α] (hd : s.HandlesDistinct) {i : Nat}
    {p : Param α} {f : Param α → Param α} (hp : s.params[i]? = some p)
    (hf : ∀ p, (f p).handle = p.handle) :
    (s.updateParam i f).lookup.value = Function.update s.lookup.value p.handle (f p).value :=
  EquationSystem.lookup_updateParam (hd.position?_eq_some_iff.2 ⟨p, hp, rfl⟩) hp hf

end EquationSystem

end SketchSolver
