import SketchSolver.Proofs.Sketch.Frame

/-!
# What loaded equations mean

A sketch looks all parameters up in one table. What is loaded from it has its values in two: the
parameters of the group are unknowns, and of all others those that the equations refer to are kept
aside. If the parameters of the sketch have different handles, a handle that an equation refers to
has the value in the system that it has in the sketch (`value_eq_of_load`).

A sketch writes parameters by their handles (`slotsBelow_groupEquations`). So a loaded equation has
the value that it has in the sketch, and so has its form by positions, each of which is that of the
unknown with the handle (`load_keepsValues`).
-/

namespace SketchSolver

/-- The last value of a handle is one of its values. -/
theorem EquationSystem.mem_of_lastValue? {ps : List (ParamHandle × α)} {x : ParamHandle} {y : α}
    (h : lastValue? ps x = some y) : (x, y) ∈ ps := by
  obtain ⟨⟨x', y'⟩, hlast, rfl⟩ := Option.map_eq_some_iff.1 h
  obtain ⟨hmem, hx⟩ := List.mem_filter.1 (List.mem_of_getLast? hlast)
  obtain rfl : x' = x := beq_iff_eq.1 hx
  exact hmem

namespace Sketch

open EquationSystem (lastValue? mem_of_lastValue? loads_of_load slot_of_position? position?_lt
  exists_of_position?)

variable {s : Sketch α}

/-! ## Equations by handle -/

/-- The coordinates of a point are two parameters. -/
theorem exists_of_point? {e : EntityHandle} {a : PointExpr α} (h : s.point? e = some a) :
    ∃ x y, a = ⟨.param x, .param y⟩ := by
  unfold point? at h
  split at h
  · next x y _ => exact ⟨x, y, (Option.some.inj h).symm⟩
  · cases h

/-- The center of a circle is given by two parameters. -/
theorem exists_of_circle? {e : EntityHandle} {center : PointExpr α} {radius : ParamHandle}
    (h : s.circle? e = some (center, radius)) : ∃ x y, center = ⟨.param x, .param y⟩ := by
  unfold circle? at h
  split at h
  · obtain ⟨a, ha, heq⟩ := Option.map_eq_some_iff.1 h
    obtain ⟨rfl, _⟩ := Prod.mk.inj heq
    exact exists_of_point? ha
  · cases h

/-- The length of a segment is written without positions. -/
theorem slotsBelow_segmentLength? {ends : EntityHandle × EntityHandle} {length : Expr α}
    (h : s.segmentLength? ends = some length) : length.slotsBelow 0 = true := by
  obtain ⟨a, ha, h⟩ := Option.bind_eq_some_iff.1 h
  obtain ⟨b, hb, h⟩ := Option.bind_eq_some_iff.1 h
  obtain ⟨_, _, rfl⟩ := exists_of_point? ha
  obtain ⟨_, _, rfl⟩ := exists_of_point? hb
  cases h
  rfl

/-- The equations of an entity are written without positions. -/
theorem slotsBelow_entityEquations {entity : Entity} :
    ∀ e ∈ s.entityEquations entity, e.slotsBelow 0 = true := by
  unfold entityEquations
  split
  · split
    · next hl hr =>
      rw [List.forall_mem_singleton]
      exact Bool.and_eq_true_iff.2 ⟨slotsBelow_segmentLength? hl, slotsBelow_segmentLength? hr⟩
    · exact nofun
  · exact nofun
  · exact nofun

section
variable [Scalar α] {g : GroupHandle} {policy : Policy} {except : Option ConstraintHandle}

/-- The equations of a constraint are written without positions. -/
theorem slotsBelow_constraintEquations? {kind : ConstraintKind α} {es : List (Expr α)}
    (h : s.constraintEquations? kind = some es) : ∀ e ∈ es, e.slotsBelow 0 = true := by
  cases kind with
  | pointsCoincident | horizontal | vertical =>
    obtain ⟨a, ha, h⟩ := Option.bind_eq_some_iff.1 h
    obtain ⟨b, hb, h⟩ := Option.bind_eq_some_iff.1 h
    obtain ⟨_, _, rfl⟩ := exists_of_point? ha
    obtain ⟨_, _, rfl⟩ := exists_of_point? hb
    cases h
    simp [Expr.slotsBelow, HSub.hSub, Sub.sub]
  | pointDistance =>
    obtain ⟨length, hlength, h⟩ := Option.bind_eq_some_iff.1 h
    cases h
    rw [List.forall_mem_singleton]
    exact Bool.and_eq_true_iff.2 ⟨slotsBelow_segmentLength? hlength, rfl⟩
  | lock =>
    obtain ⟨a, ha, h⟩ := Option.bind_eq_some_iff.1 h
    obtain ⟨_, _, rfl⟩ := exists_of_point? ha
    cases h
    simp [Expr.slotsBelow, HSub.hSub, Sub.sub]
  | pointOnCircle =>
    obtain ⟨a, ha, h⟩ := Option.bind_eq_some_iff.1 h
    obtain ⟨⟨center, radius⟩, hcircle, h⟩ := Option.bind_eq_some_iff.1 h
    obtain ⟨_, _, rfl⟩ := exists_of_point? ha
    obtain ⟨_, _, rfl⟩ := exists_of_circle? hcircle
    cases h
    rw [List.forall_mem_singleton]
    rfl
  | equalLength =>
    obtain ⟨l, hl, h⟩ := Option.bind_eq_some_iff.1 h
    obtain ⟨r, hr, h⟩ := Option.bind_eq_some_iff.1 h
    cases h
    rw [List.forall_mem_singleton]
    exact Bool.and_eq_true_iff.2 ⟨slotsBelow_segmentLength? hl, slotsBelow_segmentLength? hr⟩
  | diameter =>
    obtain ⟨⟨_, _⟩, _, h⟩ := Option.bind_eq_some_iff.1 h
    cases h
    rw [List.forall_mem_singleton]
    rfl

/-- An equation that is written has no positions in it. -/
theorem slotsBelow_groupEquations :
    ∀ q ∈ s.groupEquations g policy except, q.expr.slotsBelow 0 = true := by
  have hnumbered : ∀ {origin : EquationOrigin} {es : List (Expr α)} {q : Equation α},
      q ∈ numbered origin es → q.expr ∈ es := fun hq => by
    obtain ⟨⟨e, k⟩, he, rfl⟩ := List.mem_map.1 hq
    exact List.fst_mem_of_mem_zipIdx he
  intro q hq
  rcases List.mem_append.1 hq with hq | hq
  · obtain ⟨c, _, hq⟩ := List.mem_flatMap.1 hq
    have he := hnumbered hq
    unfold constraintEquations at he
    cases hes : s.constraintEquations? c.kind with
    | none => simp [hes] at he
    | some es =>
      rw [hes, Option.getD_some] at he
      exact slotsBelow_constraintEquations? hes _ he
  · obtain ⟨entity, _, hq⟩ := List.mem_flatMap.1 hq
    exact slotsBelow_entityEquations _ (hnumbered hq)

/-! ## Values -/

/-- The value of a handle in a sketch is that of its parameter, and undefined if it has none. -/
theorem lookup_value_eq (s : Sketch α) (x : ParamHandle) :
    s.lookup.value x = (Document.paramValue? s x).getD Scalar.undefined := by
  unfold lookup Lookup.byHandle
  cases hx : s.param? x with
  | none => simp [Document.paramValue?, hx]
  | some p => simp [Document.paramValue?, hx]

/-- A handle that a loaded equation refers to has the value that it has in the sketch. -/
theorem value_eq_of_load {system t : EquationSystem α} {d : Sketch α}
    (hd : (s.params.map (·.handle)).Nodup)
    (hload : system.load s g except = .ok (policy, t, d)) {q : Equation α} (hq : q ∈ t.equations)
    {x : ParamHandle} (hx : q.expr.dependsOn x = true) : t.lookup.value x = s.lookup.value x := by
  have hl := loads_of_load hload
  rw [hl.value_eq, lookup_value_eq]
  cases hown : lastValue? (Document.params s g) x with
  | some y => rw [paramValue?_of_mem_params hd (mem_of_lastValue? hown), Option.getD_some]
  | none =>
    -- Measuring labels, which is all that loading does to a sketch, changes no parameter.
    have hother : Document.paramValue? d x = Document.paramValue? s x := by
      rw [hl.document, writeEquations_eq hl.policy]
      rfl
    simp only [if_pos (show ∃ q ∈ t.equations, q.expr.dependsOn x = true from ⟨q, hq, hx⟩), hother]

/-- Loading keeps what equations mean. From a sketch that has been built, the equations that it
writes for a group that there is can be loaded into any system. Each of them then has the value that
it has in the sketch, and so has its form by positions, all of which lie in the table, where the
unknowns with the handles stand. -/
theorem load_keepsValues (hs : Built s) (system : EquationSystem α) (g : GroupHandle)
    (except : Option ConstraintHandle) :
    (s.group? g = none → system.load s g except = .error (.unknownGroup g)) ∧
    ∀ group, s.group? g = some group →
      ∃ t d, system.load s g except = .ok (group.policy, t, d) ∧ d.lookup = s.lookup ∧
        t.equations = (s.writeEquations g except []).1 ∧ ∀ q ∈ t.equations,
          t.value q.expr = .ok (q.expr.eval s.lookup) ∧
          t.value (q.expr.toSlots t.position?) = .ok (q.expr.eval s.lookup) ∧
          (q.expr.toSlots t.position?).SlotsIn fun h i =>
            ∃ hi : i < t.params.length, t.params[i].handle = h := by
  refine ⟨fun hgroup => ?_, fun group hgroup => ?_⟩
  · simp [EquationSystem.load, Document.policy, hgroup, bind, Except.bind]
  obtain ⟨t, d, hload⟩ := exists_load_eq_ok (policy_eq_ok hgroup) system except
  have hl := loads_of_load hload
  have hwritten := writeEquations_eq hl.policy except
  refine ⟨t, d, hload, ?_, hl.equations, fun q hq => ?_⟩
  · rw [hl.document, hwritten]
    rfl
  have hnone : q.expr.SlotsIn fun _ _ => False := by
    rw [hl.equations, hwritten] at hq
    exact Expr.slotsIn_of_slotsBelow_zero (slotsBelow_groupEquations q hq)
  have hslots := Expr.slotsIn_toSlots t.position? q.expr
  have hsame : q.expr.eval (.byHandle t.lookup.value) = q.expr.eval s.lookup :=
    Expr.eval_byHandle_congr fun x hx =>
      value_eq_of_load hs.handlesGivenOut.nodup hload hq hx
  refine ⟨?handles, ?slots, hslots.mono fun h i hi => ?_⟩
  case handles =>
    rw [EquationSystem.value, if_pos (hnone.slotsBelow fun _ _ => False.elim),
      hnone.eval fun _ _ => False.elim, hsame]
  case slots =>
    rw [EquationSystem.value, if_pos (hslots.slotsBelow fun _ _ => position?_lt),
      Expr.eval_toSlots fun _ _ hi => slot_of_position? hi, hsame]
  obtain ⟨p, hp, hhandle⟩ := exists_of_position? hi
  obtain ⟨hlt, rfl⟩ := List.getElem?_eq_some_iff.1 hp
  exact ⟨hlt, hhandle⟩

/-- A point is tied to one of another group, which is locked, and to be level with a point that is
missing. -/
def tied : Sketch (Exact ℚ) :=
  let (g, s) := (Sketch.empty Settings.rational).addGroup "tied"
  let (g', s) := s.addGroup "locked"
  let (a, s) := s.addPoint g (.number 0) (.number 0)
  let (b, s) := s.addPoint g' (.number 3) (.number 4)
  let (_, s) := s.addConstraint g (.pointDistance a b (.number 2))
  let (_, s) := s.addConstraint g (.horizontal a ⟨9⟩)
  (s.addConstraint g' (.lock b (.number 3) (.number 4))).2

/-- The distance is three too long, whether it is looked up in the sketch or, in either form, in the
system, where the first point has positions and the other one has none. -/
theorem load_tied : Built tied ∧
    (EquationSystem.empty Settings.rational).load tied ⟨3⟩ none = .error (.unknownGroup ⟨3⟩) ∧
    ∃ policy t d,
      (EquationSystem.empty Settings.rational).load tied ⟨1⟩ none = .ok (policy, t, d) ∧
      t.equations.map (·.handle) = [⟨.constraint ⟨1⟩, 0⟩] ∧
      ∀ q ∈ t.equations, q.expr.eval tied.lookup = .number 3 ∧ t.value q.expr = .ok (.number 3) ∧
        q.expr.toSlots t.position? =
          Expr.sqrt (.square (.slot ⟨1⟩ 0 - .param ⟨3⟩) + .square (.slot ⟨2⟩ 1 - .param ⟨4⟩)) -
            .const (.number 2) ∧
        t.value (q.expr.toSlots t.position?) = .ok (.number 3) := by
  have hgroups := ((Built.empty Settings.rational).addGroup "tied").addGroup "locked"
  have hpoint := ((hgroups.addParam ⟨1⟩ (.number 0) (by decide)).addParam ⟨1⟩ (.number 0)
    (by decide)).addEntity ⟨1⟩ (.point ⟨1⟩ ⟨2⟩)
  have hpoints := ((hpoint.addParam ⟨2⟩ (.number 3) (by decide)).addParam ⟨2⟩ (.number 4)
    (by decide)).addEntity ⟨2⟩ (.point ⟨3⟩ ⟨4⟩)
  have hs : Built tied :=
    ((hpoints.addConstraint ⟨1⟩ _).addConstraint ⟨1⟩ _).addConstraint ⟨2⟩ _
  have hloaded : ((EquationSystem.empty Settings.rational).load tied ⟨1⟩ none).toOption.map
      (fun out => out.2.1.equations.map fun q =>
        (q.handle, q.expr.eval tied.lookup, q.expr.toSlots out.2.1.position?)) =
      some [(⟨.constraint ⟨1⟩, 0⟩, .number 3,
        Expr.sqrt (.square (.slot ⟨1⟩ 0 - .param ⟨3⟩) + .square (.slot ⟨2⟩ 1 - .param ⟨4⟩)) -
          .const (.number 2))] := by decide +kernel
  obtain ⟨hmissing, _⟩ := load_keepsValues hs (.empty Settings.rational) ⟨3⟩ none
  obtain ⟨_, hfound⟩ := load_keepsValues hs (.empty Settings.rational) ⟨1⟩ none
  obtain ⟨t, d, hload, _, _, hvalues⟩ := hfound _ rfl
  rw [hload, Except.toOption, Option.map_some, Option.some.injEq] at hloaded
  obtain ⟨q, hequations, heq⟩ := List.map_eq_singleton_iff.1 hloaded
  obtain ⟨hhandle, heval, hslots⟩ := by simpa only [Prod.mk.injEq] using heq
  refine ⟨hs, hmissing rfl, _, t, d, hload, by rw [hequations, List.map_singleton, hhandle],
    fun r hr => ?_⟩
  obtain ⟨hhandles, hpositions, _⟩ := hvalues r hr
  obtain rfl : r = q := List.mem_singleton.1 (hequations ▸ hr)
  rw [heval] at hhandles hpositions
  exact ⟨heval, hhandles, hslots, hpositions⟩

end

end Sketch

end SketchSolver
