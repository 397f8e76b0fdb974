import SketchSolver.Proofs.HandleTable
import SketchSolver.Proofs.Sketch.Equations

/-!
# What is loaded from a sketch

Sketches that look the same to a check load systems that agree (`agree_load`), and so do a sketch
except for a constraint and the sketch without it (`agree_load_removeConstraint`). Values that are
written back do not show if they are there already (`looksSame_applyWrites`).

A trial of a search takes the values of its unknowns from another system. It loads what is loaded
from the sketch with these values (`agree_load_withValuesOf`), and there nothing shows that has been
written back to the group (`looksSame_withValuesOf_applyWrites`).
-/

namespace SketchSolver

namespace EquationSystem

/-- The last value of a handle is there if the handle is. -/
theorem lastValue?_eq_none_iff {ps : List (ParamHandle × α)} {x : ParamHandle} :
    lastValue? ps x = none ↔ x ∉ ps.map Prod.fst := by
  rw [lastValue?, Option.map_eq_none_iff, List.getLast?_eq_none_iff, List.filter_eq_nil_iff]
  simp only [beq_iff_eq, List.mem_map, not_exists, not_and]

/-- The only value of a handle is its last one. -/
theorem lastValue?_of_mem {ps : List (ParamHandle × α)} {e : ParamHandle × α} (he : e ∈ ps)
    (hone : (ps.map Prod.fst).count e.1 = 1) : lastValue? ps e.1 = some e.2 := by
  have hlen : (ps.filter (·.1 == e.1)).length = 1 := by
    rw [← hone, List.count, List.countP_map, List.countP_eq_length_filter]
    rfl
  obtain ⟨y, hy⟩ := List.length_eq_one_iff.1 hlen
  have hmem : e ∈ ps.filter (·.1 == e.1) := List.mem_filter.2 ⟨he, by simp⟩
  rw [hy, List.mem_singleton] at hmem
  rw [lastValue?, hy, ← hmem]
  rfl

end EquationSystem

namespace Sketch

open EquationSystem (lastValue? lastValue?_eq_none_iff lastValue?_of_mem)

variable [Scalar α] {g : GroupHandle} {policy : Policy} {s s' : Sketch α}

/-! ## Writing back -/

/-- The last value of a handle in a group is that of the last parameter of the group with this
handle. -/
theorem lastValue?_params (s : Sketch α) (g : GroupHandle) (x : ParamHandle) :
    lastValue? (Document.params s g) x =
      (((s.params.filter (·.group == g)).filter (·.handle == x)).getLast?).map (·.value) := by
  change lastValue? ((s.params.filter (·.group == g)).map fun p => (p.handle, p.value)) x = _
  rw [lastValue?, List.filter_map, List.getLast?_map, Option.map_map]
  rfl

/-- A value that can be written back without a trace: it is for a parameter of the group, and it is
the one that the parameter has, unless others have the same handle. -/
def Keeps (ps : List (ParamHandle × α)) (w : Write α) : Prop :=
  w.handle ∈ ps.map Prod.fst ∧
    ((ps.map Prod.fst).count w.handle = 1 → lastValue? ps w.handle = some w.value)

/-- Writing a value back changes no handle. -/
theorem handles_writeBack (s : Sketch α) (x : ParamHandle) (value : α) (free : Bool) :
    (Document.params (Document.writeBack s x value free) g).map Prod.fst =
      (Document.params s g).map Prod.fst := by
  have hown := filter_updateFirst (q := fun p : SketchParam α => p.group == g)
    (f := fun p => { p with value, known := true, free }) (fun _ => rfl) (p := (·.handle == x))
    s.params
  change ((List.filter _ (updateFirst _ _ s.params)).map _).map Prod.fst =
    ((List.filter _ s.params).map _).map Prod.fst
  rw [List.map_map, List.map_map]
  rcases hown with h | h
  · rw [h]
  · rw [h]
    exact map_updateFirst (f := fun p : SketchParam α => { p with value, known := true, free })
      (fun _ => rfl) _

/-- Writing a value back changes that of no other handle. -/
theorem paramValue?_writeBack {x y : ParamHandle} (hne : y ≠ x) (s : Sketch α) (value : α)
    (free : Bool) :
    Document.paramValue? (Document.writeBack s x value free) y = Document.paramValue? s y := by
  change Option.map _ (List.find? _ (updateFirst _ _ s.params)) =
    Option.map _ (List.find? _ s.params)
  rw [find?_updateFirst_of_disjoint fun p hp => ?_]
  have hpy : (p.handle == y) = false := by
    rw [beq_iff_eq.1 hp]
    exact beq_eq_false_iff_ne.2 (Ne.symm hne)
  exact ⟨hpy, hpy⟩

/-- Writing such a value back leaves the sketch looking the same. -/
theorem looksSame_writeBack {w : Write α} (hw : Keeps (Document.params s g) w) :
    LooksSame g policy s (Document.writeBack s w.handle w.value w.free) := by
  generalize hf : (fun p : SketchParam α =>
    { p with value := w.value, known := true, free := w.free }) = f
  have hhandle : ∀ p, (f p).handle = p.handle := by
    intro p
    rw [← hf]
  have hgroup : ∀ p : SketchParam α, ((f p).group == g) = (p.group == g) := by
    intro p
    rw [← hf]
  have hvalue : ∀ p, (f p).value = w.value := by
    intro p
    rw [← hf]
  have hparams : (Document.writeBack s w.handle w.value w.free).params =
      updateFirst (·.handle == w.handle) f s.params := by
    rw [← hf]
    rfl
  have hself : ∀ p : SketchParam α, (p.handle == w.handle) = true →
      ((f p).handle == w.handle) = true := by
    intro p hp
    rw [hhandle, hp]
  have hdisjoint : ∀ x, x ≠ w.handle → ∀ p : SketchParam α, (p.handle == w.handle) = true →
      (p.handle == x) = false ∧ ((f p).handle == x) = false := by
    intro x hx p hp
    rw [hhandle, beq_iff_eq.1 hp]
    exact ⟨beq_eq_false_iff_ne.2 (Ne.symm hx), beq_eq_false_iff_ne.2 (Ne.symm hx)⟩
  have hown : (updateFirst (·.handle == w.handle) f s.params).filter (·.group == g) =
        s.params.filter (·.group == g) ∨
      (updateFirst (·.handle == w.handle) f s.params).filter (·.group == g) =
        updateFirst (·.handle == w.handle) f (s.params.filter (·.group == g)) :=
    filter_updateFirst hgroup _
  refine ⟨rfl, rfl, rfl, List.forall₂_same.2 fun c _ => .refl g policy c, handles_writeBack ..,
    fun x => ?own, fun x hx => paramValue?_writeBack (by rintro rfl; exact hx hw.1) ..⟩
  rw [lastValue?_params, lastValue?_params, hparams]
  rcases hown with h | h
  · rw [h]
  · rw [h]
    by_cases hx : x = w.handle
    · subst hx
      have hone := hw.2
      rw [lastValue?_params] at hone
      rw [filter_updateFirst_self hself]
      have hcount : ((Document.params s g).map Prod.fst).count w.handle =
          ((s.params.filter (·.group == g)).filter (·.handle == w.handle)).length := by
        change (List.map _ (List.map _ (s.params.filter (·.group == g)))).count w.handle = _
        rw [List.map_map, List.count, List.countP_map, List.countP_eq_length_filter]
        rfl
      rw [hcount] at hone
      have hmem : ∀ p ∈ (s.params.filter (·.group == g)).filter (·.handle == w.handle),
          (p.handle == w.handle) = true := fun p hp => (List.mem_filter.1 hp).2
      generalize (s.params.filter (·.group == g)).filter (·.handle == w.handle) = own
        at hone hmem
      cases own with
      | nil => rfl
      | cons p rest =>
        rw [updateFirst, if_pos (hmem p (List.mem_cons_self ..))]
        cases rest with
        | nil =>
          rw [hone rfl]
          exact congrArg some (hvalue p)
        | cons _ _ => rw [List.getLast?_cons_cons, List.getLast?_cons_cons]
    · rw [filter_updateFirst_of_disjoint (hdisjoint x hx)]

omit [Scalar α] in
/-- A value that is in the table can be written back without a trace. -/
theorem Keeps.of_mem {ps : List (ParamHandle × α)} {w : Write α}
    (hw : (w.handle, w.value) ∈ ps) : Keeps ps w :=
  ⟨List.mem_map_of_mem hw, fun hone => lastValue?_of_mem hw hone⟩

omit [Scalar α] in
/-- Whether a value leaves a trace is a matter of the handles and their last values. -/
theorem Keeps.congr {ps ps' : List (ParamHandle × α)} {w : Write α} (hw : Keeps ps w)
    (hhandles : ps'.map Prod.fst = ps.map Prod.fst)
    (hlast : ∀ x, lastValue? ps' x = lastValue? ps x) : Keeps ps' w := by
  unfold Keeps
  rw [hhandles, hlast]
  exact hw

/-- Writing back values that are there already leaves the sketch looking the same. -/
theorem looksSame_applyWrites : ∀ {writes : List (Write α)} {s : Sketch α},
    (∀ w ∈ writes, Keeps (Document.params s g) w) →
      LooksSame g policy s (EquationSystem.applyWrites s writes)
  | [], s, _ => .refl g policy s
  | w :: rest, s, hkeeps => by
    have hone : LooksSame g policy s (Document.writeBack s w.handle w.value w.free) :=
      looksSame_writeBack (hkeeps w (List.mem_cons_self ..))
    refine hone.trans (looksSame_applyWrites fun w' hw' => ?_)
    exact (hkeeps w' (List.mem_cons_of_mem _ hw')).congr hone.handles hone.own

/-- Recording a status leaves the sketch looking the same. -/
theorem looksSame_recordStatus (s : Sketch α) (status : Status) :
    LooksSame g policy s (Document.recordStatus s g status) where
  settings := rfl
  hasPolicy := by
    have hfind := find?_updateFirst_self (p := (·.handle == g))
      (f := fun group : Group => { group with status }) (fun _ h => h) s.groups
    change ((updateFirst _ _ s.groups).find? _).map _ = (s.groups.find? _).map _
    rw [hfind, Option.map_map]
    rfl
  entities := rfl
  constraints := List.forall₂_same.2 fun c _ => .refl g policy c
  handles := rfl
  own _ := rfl
  other _ _ := rfl

/-! ## Loading sketches that look the same -/

/-- A group with a policy can be loaded. -/
theorem exists_load_eq_ok {t : Sketch α} (h : Document.policy t g = .ok policy)
    (system : EquationSystem α) (except : Option ConstraintHandle) :
    ∃ loaded t', system.load t g except = .ok (policy, loaded, t') := by
  unfold EquationSystem.load
  rw [h]
  exact ⟨_, _, rfl⟩

/-- A sketch answers with the policy of the group, if it has the group. -/
theorem policy_eq_ok_iff :
    Document.policy s g = .ok policy ↔ (s.group? g).map (·.policy) = some policy := by
  cases hgroup : s.group? g <;> simp [Document.policy, hgroup]

/-- A sketch answers with the policy of a group that it has. -/
theorem policy_eq_ok {group : Group} (hgroup : s.group? g = some group) :
    Document.policy s g = .ok group.policy :=
  policy_eq_ok_iff.2 (congrArg (Option.map (·.policy)) hgroup)

/-- A sketch that looks the same has the same policy. -/
theorem LooksSame.policy_eq (h : LooksSame g policy s s') (hs : Document.policy s g = .ok policy) :
    Document.policy s' g = .ok policy := by
  rw [policy_eq_ok_iff] at hs ⊢
  rw [h.hasPolicy, hs]

/-- What a sketch writes, where its group has the policy, and what that measures. -/
theorem writeEquations_append (hs : Document.policy s g = .ok policy)
    (except : Option ConstraintHandle) (out : List (Equation α)) :
    Document.writeEquations s g except out =
      (out ++ s.groupEquations g policy except, s.measureReferences g policy except) := by
  obtain ⟨group, hgroup, rfl⟩ := Option.map_eq_some_iff.1 (policy_eq_ok_iff.1 hs)
  change s.writeEquations g except out = _
  unfold writeEquations
  rw [hgroup]

/-- Into an empty list, a sketch writes the equations of the group. -/
theorem writeEquations_eq (hs : Document.policy s g = .ok policy)
    (except : Option ConstraintHandle) : Document.writeEquations s g except [] =
      (s.groupEquations g policy except, s.measureReferences g policy except) :=
  writeEquations_append hs except []

/-- Sketches that look the same have the same constraints in the group. -/
theorem LooksSame.constraints_eq (h : LooksSame g policy s s') :
    Document.constraints s' g = Document.constraints s g := by
  have hlists : ∀ {l l' : List (Constraint α)},
      List.Forall₂ (Constraint.LooksSame g policy) l l' →
      (l'.filter (·.group == g)).map (fun c => (c.handle, c.isCoincident)) =
        (l.filter (·.group == g)).map fun c => (c.handle, c.isCoincident) := by
    intro l l' hl
    induction hl with
    | nil => rfl
    | cons hc _ ih =>
      obtain ⟨hhandle, hgroup, _, hcoincident⟩ := hc.eq
      simp only [List.filter_cons, hgroup]
      split
      · rw [List.map_cons, List.map_cons, hhandle, hcoincident, ih]
      · exact ih
  exact hlists h.constraints

section
variable {a b t u : EquationSystem α} {s₁ s₂ s₁' s₂' : Sketch α}
  {except except' : Option ConstraintHandle}

/-- What is loaded from two sketches that look the same agrees, if they write the same
equations. -/
theorem agree_load (hlooks : LooksSame g policy s₁ s₂) (hsettings : b.settings = a.settings)
    (ha : a.load s₁ g except = .ok (policy, t, s₁'))
    (hb : b.load s₂ g except' = .ok (policy, u, s₂'))
    (hequations : s₂.groupEquations g policy except' = s₁.groupEquations g policy except) :
    t.Agree u ∧ LooksSame g policy s₁ s₂' := by
  have hla := EquationSystem.loads_of_load ha
  have hlb := EquationSystem.loads_of_load hb
  have hwa := writeEquations_eq hla.policy except
  have hwb := writeEquations_eq hlb.policy except'
  have ha' : LooksSame g policy s₁ s₁' := by
    rw [hla.document, hwa]
    exact looksSame_measureReferences s₁ except
  have hb' : LooksSame g policy s₁ s₂' := by
    rw [hlb.document, hwb]
    exact hlooks.trans (looksSame_measureReferences s₂ except')
  refine ⟨hla.agree hlb hsettings ?_ hlooks.handles hlooks.own fun x hx => ?_, hb'⟩
  · rw [hlb.equations, hla.equations, hwa, hwb]
    exact hequations
  · rw [lastValue?_eq_none_iff] at hx
    rw [hb'.other x hx, ha'.other x hx]

/-- What is loaded from a sketch except for a constraint agrees with what is loaded after the
constraint has been removed. -/
theorem agree_load_removeConstraint {c : ConstraintHandle} (hsettings : b.settings = a.settings)
    (ha : a.load s₁ g (some c) = .ok (policy, t, s₁'))
    (hb : b.load (s₁.removeConstraint c) g none = .ok (policy, u, s₂')) : t.Agree u := by
  have hla := EquationSystem.loads_of_load ha
  have hlb := EquationSystem.loads_of_load hb
  have hwa := writeEquations_eq hla.policy (some c)
  have hwb := writeEquations_eq hlb.policy none
  refine hla.agree hlb hsettings ?_ rfl (fun _ => rfl) fun x _ => ?_
  · rw [hlb.equations, hla.equations, hwa, hwb]
    exact groupEquations_removeConstraint s₁ c
  · rw [hlb.document, hla.document, hwa, hwb]
    rfl

end

/-! ## Values of another system -/

section
variable {main : EquationSystem α} {x : ParamHandle}

omit [Scalar α] in
/-- The sketch with the values that the unknowns of a group have in a system. -/
def withValuesOf (s : Sketch α) (g : GroupHandle) (main : EquationSystem α) : Sketch α :=
  { s with
    params := s.params.map fun p =>
      if p.group == g then
        { p with value := ((main.param? p.handle).map (·.value)).getD p.value }
      else p }

/-- In the sketch with the values of a system, a parameter of the group has the value of its
unknown, or its own if it is no unknown. -/
theorem params_withValuesOf (s : Sketch α) (g : GroupHandle) (main : EquationSystem α) :
    Document.params (s.withValuesOf g main) g = (Document.params s g).map fun e =>
      (e.1, ((main.param? e.1).map (·.value)).getD e.2) := by
  have hgroup : ((fun p : SketchParam α => p.group == g) ∘ fun p : SketchParam α =>
      if p.group == g then
        { p with value := ((main.param? p.handle).map (·.value)).getD p.value }
      else p) = fun p => p.group == g := by
    funext p
    simp only [Function.comp_apply]
    split <;> rfl
  change ((List.map _ s.params).filter _).map _ = ((s.params.filter _).map _).map _
  rw [List.filter_map, hgroup, List.map_map, List.map_map]
  refine List.map_congr_left fun p hp => ?_
  simp only [Function.comp_apply, (List.mem_filter.1 hp).2, if_true]

/-- Values from another system change no handle of the group. -/
theorem handles_withValuesOf (s : Sketch α) (g : GroupHandle) (main : EquationSystem α) :
    (Document.params (s.withValuesOf g main) g).map Prod.fst =
      (Document.params s g).map Prod.fst := by
  rw [params_withValuesOf, List.map_map]
  rfl

/-- The values of a group are those of the system, as far as it has them. -/
theorem lastValue?_withValuesOf (s : Sketch α) (g : GroupHandle) (main : EquationSystem α)
    (x : ParamHandle) : lastValue? (Document.params (s.withValuesOf g main) g) x =
      (lastValue? (Document.params s g) x).map ((main.param? x).map (·.value)).getD := by
  rw [params_withValuesOf, lastValue?, List.filter_map, List.getLast?_map, lastValue?,
    Option.map_map, Option.map_map]
  refine Option.map_congr fun e he => ?_
  have hx : (e.1 == x) = true := (List.mem_filter.1 (List.mem_of_getLast? he)).2
  rw [beq_iff_eq] at hx
  simp only [Function.comp_apply, hx]

/-- The values of other parameters are as they were. -/
theorem paramValue?_withValuesOf (hx : x ∉ (Document.params s g).map Prod.fst) :
    Document.paramValue? (s.withValuesOf g main) x = Document.paramValue? s x := by
  change Option.map _ ((List.map _ s.params).find? _) = Option.map _ (s.params.find? _)
  rw [List.find?_map, Option.map_map]
  have hhandle : ((fun p : SketchParam α => p.handle == x) ∘ fun p : SketchParam α =>
      if p.group == g then
        { p with value := ((main.param? p.handle).map (·.value)).getD p.value }
      else p) = fun p => p.handle == x := by
    funext p
    simp only [Function.comp_apply]
    split <;> rfl
  rw [hhandle]
  refine Option.map_congr fun p hp => ?_
  have hp' : p.handle = x := by simpa using List.find?_some hp
  have hgroup : (p.group == g) = false := by
    by_contra h
    rw [Bool.not_eq_false] at h
    refine hx (List.mem_map.2 ⟨(p.handle, p.value), List.mem_map.2 ⟨p, ?_, rfl⟩, hp'⟩)
    exact List.mem_filter.2 ⟨List.mem_of_find?_eq_some hp, h⟩
  simp only [Function.comp_apply, hgroup, Bool.false_eq_true, if_false]

/-- Sketches that look the same do so with the values of a system. -/
theorem LooksSame.withValuesOf (h : LooksSame g policy s s') (main : EquationSystem α) :
    LooksSame g policy (s.withValuesOf g main) (s'.withValuesOf g main) where
  settings := h.settings
  hasPolicy := h.hasPolicy
  entities := h.entities
  constraints := h.constraints
  handles := by rw [handles_withValuesOf, handles_withValuesOf, h.handles]
  own x := by rw [lastValue?_withValuesOf, lastValue?_withValuesOf, h.own]
  other x hx := by
    rw [handles_withValuesOf] at hx
    have hx' : x ∉ (Document.params s' g).map Prod.fst := by rwa [h.handles]
    rw [paramValue?_withValuesOf hx, paramValue?_withValuesOf hx', h.other x hx]

/-- A sketch that has the values of a system looks the same with them. -/
theorem looksSame_withValuesOf
    (hvalue : ∀ x y p, lastValue? (Document.params s g) x = some y → main.param? x = some p →
      p.value = y) : LooksSame g policy s (s.withValuesOf g main) where
  settings := rfl
  hasPolicy := rfl
  entities := rfl
  constraints := List.forall₂_same.2 fun c _ => .refl g policy c
  handles := handles_withValuesOf s g main
  own x := by
    rw [lastValue?_withValuesOf]
    cases hy : lastValue? (Document.params s g) x with
    | none => rfl
    | some y =>
      cases hp : main.param? x with
      | none => rfl
      | some p => exact congrArg some (hvalue x y p hy hp)
  other x hx := paramValue?_withValuesOf hx

/-- Values that are written back to a group do not show where they are replaced by others. -/
theorem looksSame_withValuesOf_applyWrites : ∀ {writes : List (Write α)} {s : Sketch α},
    main.params.map (·.handle) = (Document.params s g).map Prod.fst →
    (∀ w ∈ writes, w.handle ∈ (Document.params s g).map Prod.fst) →
      LooksSame g policy (s.withValuesOf g main)
        ((EquationSystem.applyWrites s writes).withValuesOf g main)
  | [], s, _, _ => .refl g policy _
  | w :: rest, s, hcover, hwrites => by
    have hhandles := handles_writeBack (g := g) s w.handle w.value w.free
    have hone : LooksSame g policy (s.withValuesOf g main)
        ((Document.writeBack s w.handle w.value w.free).withValuesOf g main) := by
      refine ⟨rfl, rfl, rfl, List.forall₂_same.2 fun c _ => .refl g policy c, ?_, fun x => ?_,
        fun x hx => ?_⟩
      · rw [handles_withValuesOf, handles_withValuesOf, hhandles]
      · -- Every unknown of the group takes its value from the system.
        rw [lastValue?_withValuesOf, lastValue?_withValuesOf]
        by_cases hx : x ∈ (Document.params s g).map Prod.fst
        · obtain ⟨y, hy⟩ : ∃ y, lastValue? (Document.params s g) x = some y :=
            Option.ne_none_iff_exists'.1 fun hnone => lastValue?_eq_none_iff.1 hnone hx
          have hx' := hx
          rw [← hhandles] at hx'
          obtain ⟨y', hy'⟩ := Option.ne_none_iff_exists'.1 fun hnone =>
            lastValue?_eq_none_iff.1 hnone hx'
          rw [← hcover, List.mem_map] at hx
          obtain ⟨p, hp⟩ := Option.isSome_iff_exists.1
            ((EquationSystem.isUnknown_eq_isSome_param? main x).symm.trans
              (EquationSystem.isUnknown_iff.2 hx))
          rw [hy, hy', hp]
          rfl
        · have hx' := hx
          rw [← hhandles] at hx'
          rw [lastValue?_eq_none_iff.2 hx, lastValue?_eq_none_iff.2 hx']
      · rw [handles_withValuesOf] at hx
        have hx' := hx
        rw [← hhandles] at hx'
        rw [paramValue?_withValuesOf hx, paramValue?_withValuesOf hx', paramValue?_writeBack]
        rintro rfl
        exact hx (hwrites w (List.mem_cons_self ..))
    refine hone.trans (looksSame_withValuesOf_applyWrites ?_ fun w' hw' => ?_)
    · rw [hcover, hhandles]
    · rw [hhandles]
      exact hwrites w' (List.mem_cons_of_mem _ hw')

/-- What takes the values of its unknowns from a system agrees with what is loaded from the sketch
with these values. -/
theorem agree_load_withValuesOf {a b t u : EquationSystem α} {s₁ s₂ : Sketch α}
    {except : Option ConstraintHandle} (hsettings : b.settings = a.settings)
    (hcover : main.params.map (·.handle) = (Document.params s g).map Prod.fst)
    (ha : a.load s g except = .ok (policy, t, s₁))
    (hb : b.load (s.withValuesOf g main) g except = .ok (policy, u, s₂)) :
    u.Agree (t.withValuesOf main) := by
  have hla := EquationSystem.loads_of_load ha
  have hlb := EquationSystem.loads_of_load hb
  have hwa := writeEquations_eq hla.policy except
  have hwb := writeEquations_eq hlb.policy except
  have hhandles : main.params.map (·.handle) = t.params.map (·.handle) := by
    rw [hcover, hla.handles_eq]
  have hequations : t.equations = u.equations := by
    rw [hla.equations, hlb.equations, hwa, hwb]
    rfl
  refine ⟨?_, hequations, ?_, ?_⟩
  · exact hla.settings.trans (hsettings.symm.trans hlb.settings.symm)
  · rw [EquationSystem.handles_withValuesOf, hla.handles_eq, hlb.handles_eq, handles_withValuesOf]
  · funext x
    rw [EquationSystem.lookup_withValuesOf hhandles, hla.isUnknown_eq, hla.value_eq, hlb.value_eq,
      lastValue?_withValuesOf, hequations]
    cases hx : lastValue? (Document.params s g) x with
    | some y =>
      have hmain : main.isUnknown x = true := by
        rw [EquationSystem.isUnknown_congr hhandles, hla.isUnknown_eq, hx]
        rfl
      obtain ⟨p, hp⟩ := Option.isSome_iff_exists.1
        ((EquationSystem.isUnknown_eq_isSome_param? main x).symm.trans hmain)
      simp [EquationSystem.lookup, hp]
    | none =>
      have hother : Document.paramValue? (s.withValuesOf g main) x = Document.paramValue? s x :=
        paramValue?_withValuesOf (lastValue?_eq_none_iff.1 hx)
      rw [hla.document, hlb.document, hwa, hwb]
      change _ = if _ then (Document.paramValue? (s.withValuesOf g main) x).getD _ else _
      rw [hother]
      rfl

end

end Sketch

end SketchSolver
