import SketchSolver.Proofs.Sketch.ReferenceDimensions

/-!
# Leaving out a constraint

A constraint is left out of the equations of a group in two ways: they are written except for it, or
it is removed and they are written then. Both give the equations that there are, less those that the
constraint has written (`groupEquations_eq_filter`, `groupEquations_removeConstraint`), and both
leave the same labels on the constraints that remain (`measureReferences_removeConstraint`). An
equation is told apart by what wrote it and its place there (`nodup_groupEquations`), and to write
equations a second time makes no difference (`measureReferences_measureReferences`). So it is for
every sketch, and where handles are to be different, for all that operations lead to
(`writeEquations_except`).
-/

namespace SketchSolver.Sketch

variable {s : Sketch α} {g : GroupHandle} {policy : Policy} {except : Option ConstraintHandle}

/-! ## Equations by origin -/

/-- A numbered equation has the origin that it was numbered under. -/
theorem origin_of_mem_numbered {origin : EquationOrigin} {es : List (Expr α)} {q : Equation α}
    (hq : q ∈ numbered origin es) : q.handle.origin = origin := by
  obtain ⟨_, _, rfl⟩ := List.mem_map.1 hq
  rfl

/-- The equations of an origin are told apart by their places. -/
theorem nodup_numbered (origin : EquationOrigin) (es : List (Expr α)) :
    ((numbered origin es).map (·.handle)).Nodup := by
  refine List.Nodup.of_map (·.index) ?_
  have hindex : ((numbered origin es).map (·.handle)).map (·.index) = es.zipIdx.map Prod.snd := by
    simp [numbered, Function.comp_def]
  rw [hindex, List.zipIdx_map_snd]
  exact List.nodup_range'

section
variable {β : Type u} {origin : β → EquationOrigin} {equations : β → List (Expr α)}

/-- The equations that are not of one origin are those of the others. -/
theorem filter_flatMap_numbered (o : EquationOrigin) : ∀ xs : List β,
    (xs.flatMap fun x => numbered (origin x) (equations x)).filter (·.handle.origin != o) =
      (xs.filter (origin · != o)).flatMap fun x => numbered (origin x) (equations x)
  | [] => rfl
  | x :: xs => by
    have hone : ∀ q ∈ numbered (origin x) (equations x),
        (q.handle.origin != o) = (origin x != o) := fun q hq => by
      rw [origin_of_mem_numbered hq]
    rw [List.flatMap_cons, List.filter_append, filter_flatMap_numbered o xs, List.filter_congr hone]
    cases hx : origin x != o with
    | true => simp [hx]
    | false => simp [hx]

/-- The handle of a numbered equation leads back to what has written it. -/
theorem mem_handles_numbered {xs : List β} {h : EquationHandle}
    (hh : h ∈ (xs.flatMap fun x => numbered (origin x) (equations x)).map (·.handle)) :
    ∃ x ∈ xs, h.origin = origin x := by
  obtain ⟨q, hq, rfl⟩ := List.mem_map.1 hh
  obtain ⟨x, hx, hq⟩ := List.mem_flatMap.1 hq
  exact ⟨x, hx, origin_of_mem_numbered hq⟩

/-- Equations of different origins have different handles. -/
theorem nodup_flatMap_numbered {xs : List β} (hxs : (xs.map origin).Nodup) (p : β → Bool) :
    (((xs.filter p).flatMap fun x => numbered (origin x) (equations x)).map (·.handle)).Nodup := by
  have hkept : ((xs.filter p).map origin).Nodup := hxs.sublist (List.filter_sublist.map origin)
  rw [List.map_flatMap, List.nodup_flatMap]
  refine ⟨fun x _ => nodup_numbered _ _, (List.pairwise_map.1 hkept).imp fun hne h hx hy => ?_⟩
  obtain ⟨q, hq, rfl⟩ := List.mem_map.1 hx
  obtain ⟨q', hq', heq⟩ := List.mem_map.1 hy
  rw [← origin_of_mem_numbered hq, ← origin_of_mem_numbered hq', heq] at hne
  exact hne rfl

end

section
variable [Scalar α]

/-- Except for a constraint, a sketch writes the equations that are not the constraint's. -/
theorem groupEquations_eq_filter (s : Sketch α) (c : ConstraintHandle) :
    s.groupEquations g policy (some c) =
      (s.groupEquations g policy none).filter (·.handle.origin != .constraint c) := by
  unfold groupEquations
  rw [List.filter_append, filter_flatMap_numbered, filter_flatMap_numbered, List.filter_filter]
  refine congrArg₂ (· ++ ·) (congrArg (List.flatMap _) ?constraints) (congrArg (List.flatMap _) ?_)
  case constraints =>
    refine List.filter_congr fun k _ => ?_
    have horigin : (EquationOrigin.constraint k.handle != .constraint c) = (k.handle != c) := by
      simp [bne]
    rw [isAsked_some, horigin]
    cases k.handle != c <;> simp
  · exact (List.filter_true _).symm

/-- Equations of a group have different handles, if constraints have and entities have. -/
theorem nodup_groupEquations (hconstraints : (s.constraints.map (·.handle)).Nodup)
    (hentities : (s.entities.map (·.handle)).Nodup) (except : Option ConstraintHandle) :
    ((s.groupEquations g policy except).map (·.handle)).Nodup := by
  unfold groupEquations
  rw [List.map_append]
  refine (nodup_flatMap_numbered ?constraints _).append (nodup_flatMap_numbered ?entities _) ?apart
  case constraints =>
    have horigins := hconstraints.map fun _ _ => EquationOrigin.constraint.inj
    rwa [List.map_map] at horigins
  case entities =>
    have horigins := hentities.map fun _ _ => EquationOrigin.entity.inj
    rwa [List.map_map] at horigins
  case apart =>
    intro h hc he
    obtain ⟨k, _, hk⟩ := mem_handles_numbered hc
    obtain ⟨e, _, he⟩ := mem_handles_numbered he
    rw [hk] at he
    cases he

/-! ## Labels -/

section
variable (s : Sketch α) (c : Constraint α)

/-- Measuring a constraint keeps its handle. -/
@[simp] theorem handle_remeasured : (s.remeasured c).handle = c.handle := by
  obtain ⟨_, h⟩ | ⟨_, _, h⟩ := s.remeasured_cases c <;> rw [h]
  rfl

/-- Measuring makes no difference to whether a constraint is asked. -/
@[simp] theorem isAsked_remeasured : isAsked g except (s.remeasured c) = isAsked g except c := by
  obtain ⟨_, h⟩ | ⟨_, _, h⟩ := s.remeasured_cases c <;> rw [h]
  rfl

/-- Measuring makes no difference to what is a reference dimension. -/
@[simp] theorem isReference_remeasured :
    (s.remeasured c).isReference policy = c.isReference policy := by
  obtain ⟨_, h⟩ | ⟨x, _, h⟩ := s.remeasured_cases c <;> rw [h]
  exact c.isReference_withLabel x

/-- A constraint that is measured again has the same label. -/
@[simp] theorem remeasured_remeasured : s.remeasured (s.remeasured c) = s.remeasured c := by
  obtain ⟨_, h⟩ | ⟨x, hmeasure, h⟩ := s.remeasured_cases c
  · rw [h, h]
  · have hkind : (c.withLabel x).kind = c.kind.withLabel x := rfl
    have hagain : s.remeasured (c.withLabel x) = (c.withLabel x).withLabel x := by
      unfold remeasured
      rw [hkind, measure?_withLabel, hmeasure]
    rw [h, hagain, Constraint.withLabel_withLabel]

end

/-- What has been measured is not changed by measuring it again. -/
theorem measureReferences_measureReferences (s : Sketch α) (except : Option ConstraintHandle) :
    (s.measureReferences g policy except).measureReferences g policy except =
      s.measureReferences g policy except := by
  have hmeasured : (s.measureReferences g policy except).remeasured = s.remeasured :=
    remeasured_congr rfl rfl
  unfold measureReferences at hmeasured ⊢
  rw [hmeasured, List.map_map]
  refine congrArg (fun constraints => { s with constraints }) (List.map_congr_left fun c _ => ?_)
  rw [Function.comp_apply]
  by_cases hc : (isAsked g except c && c.isReference policy) = true
  · rw [if_pos hc, isAsked_remeasured, isReference_remeasured, if_pos hc, remeasured_remeasured]
  · rw [if_neg hc, if_neg hc]

/-- The labels of the constraints that remain are the same, whichever way one is left out. -/
theorem measureReferences_removeConstraint (s : Sketch α) (c : ConstraintHandle) :
    (s.removeConstraint c).measureReferences g policy none =
      (s.measureReferences g policy (some c)).removeConstraint c := by
  have hmeasured : (s.removeConstraint c).remeasured = s.remeasured := remeasured_congr rfl rfl
  unfold measureReferences
  rw [hmeasured]
  unfold removeConstraint
  refine congrArg (fun constraints => { s with constraints }) ?_
  have hhandle : ∀ k ∈ s.constraints,
      ((if isAsked g (some c) k && k.isReference policy then s.remeasured k else k).handle != c) =
        (k.handle != c) := fun k _ => by
    split <;> simp
  rw [List.filter_map]
  simp only [Function.comp_def]
  rw [List.filter_congr hhandle]
  refine List.map_congr_left fun k hk => ?_
  -- A constraint that is left is not the one that is excepted.
  have hne : (k.handle != c) = true := (List.mem_filter.1 hk).2
  rw [isAsked_some, hne, Bool.and_true]

/-! ## Writing -/

/-- A consistent sketch writes no two equations of the same handle. -/
theorem WellFormed.nodup_writeEquations (hs : s.WellFormed) (g : GroupHandle)
    (except : Option ConstraintHandle) :
    ((s.writeEquations g except []).1.map (·.handle)).Nodup := by
  unfold writeEquations
  split
  · exact List.nodup_nil
  · exact nodup_groupEquations hs.nodup_constraints hs.nodup_entities except

/-- Where there is room for all the handles, what operations lead to is consistent. -/
theorem exists_performAll (settings : Settings α) (ops : List (Operation α))
    (hfew : ∀ t, additions ops t < 2 ^ 32 - 1) :
    ∃ answers s, (Sketch.empty settings).performAll ops = .ok (answers, s) ∧ s.WellFormed := by
  have hroom : ∀ t, ((Sketch.empty settings).next t).toNat + additions ops t < UInt32.size := by
    intro t
    have hfirst : ((Sketch.empty settings).next t).toNat = 1 := by cases t <;> rfl
    have hsize : UInt32.size = 2 ^ 32 := rfl
    have hlt := hfew t
    omega
  obtain ⟨answers, s, hrun, hs, _⟩ := (WellFormed.empty settings).performAll ops hroom
  exact ⟨answers, s, hrun, hs⟩

/-- To except a constraint is to remove it. What a sketch writes for a group is appended to a list,
and without the constraint it is the same, in the same order, as except for the constraint: all that
there is but what the constraint has written. The labels that remain are the same, too, and what has
been written once is written again with no change. Equations have different handles where the
constraints have and the entities have, so they do in every sketch that operations lead to. -/
theorem writeEquations_except :
    (∀ (s : Sketch α) (g : GroupHandle), ∃ es : Option ConstraintHandle → List (Equation α),
      (∀ except out, (s.writeEquations g except out).1 = out ++ es except) ∧
      (∀ c, es (some c) = (es none).filter (·.handle.origin != .constraint c) ∧
        ∀ out, (s.removeConstraint c).writeEquations g none out =
          (out ++ es (some c), (s.writeEquations g (some c) out).2.removeConstraint c)) ∧
      (∀ except out out', ((s.writeEquations g except out).2).writeEquations g except out' =
        (out' ++ es except, (s.writeEquations g except out).2)) ∧
      ((s.constraints.map (·.handle)).Nodup → (s.entities.map (·.handle)).Nodup →
        ∀ except, ((es except).map (·.handle)).Nodup)) ∧
    ∀ (settings : Settings α) (ops : List (Operation α)), (∀ t, additions ops t < 2 ^ 32 - 1) →
      ∃ answers s, (Sketch.empty settings).performAll ops = .ok (answers, s) ∧
        ∀ g except, ((s.writeEquations g except []).1.map (·.handle)).Nodup := by
  refine ⟨fun s g => ?_, fun settings ops hfew => ?_⟩
  · cases hgroup : s.group? g with
    | none =>
      have hwrites : ∀ {s' : Sketch α}, s'.group? g = none → ∀ except out,
          s'.writeEquations g except out = (out, s') := fun h _ _ => by
        rw [writeEquations, h]
      refine ⟨fun _ => [], fun except out => ?_, fun c => ⟨rfl, fun out => ?_⟩,
        fun except out out' => ?_, fun _ _ _ => List.nodup_nil⟩
      · rw [hwrites hgroup, List.append_nil]
      · have hgroup' : (s.removeConstraint c).group? g = none := hgroup
        rw [hwrites hgroup, hwrites hgroup', List.append_nil]
      · rw [hwrites hgroup, hwrites hgroup, List.append_nil]
    | some group =>
      have hwrites : ∀ {s' : Sketch α}, s'.group? g = some group → ∀ except out,
          s'.writeEquations g except out = (out ++ s'.groupEquations g group.policy except,
            s'.measureReferences g group.policy except) :=
        fun h => writeEquations_append (policy_eq_ok h)
      refine ⟨s.groupEquations g group.policy, fun except out => ?_,
        fun c => ⟨s.groupEquations_eq_filter c, fun out => ?_⟩, fun except out out' => ?_,
        nodup_groupEquations⟩
      · rw [hwrites hgroup]
      · have hgroup' : (s.removeConstraint c).group? g = some group := hgroup
        rw [hwrites hgroup, hwrites hgroup', groupEquations_removeConstraint,
          measureReferences_removeConstraint]
      · have hgroup' : (s.measureReferences g group.policy except).group? g = some group := hgroup
        rw [hwrites hgroup, hwrites hgroup',
          (s.looksSame_measureReferences except).groupEquations_eq,
          measureReferences_measureReferences]
  · obtain ⟨answers, s, hrun, hs⟩ := exists_performAll settings ops hfew
    exact ⟨answers, s, hrun, hs.nodup_writeEquations⟩

/-- An arc whose center is locked shows its radius. Its ends are to be level with the center, and a
point that is missing is to be so, too. -/
def lockedArc : List (Operation (Exact ℚ)) :=
  [.addGroup "arc", .addPoint ⟨1⟩ (.number 0) (.number 0), .addPoint ⟨1⟩ (.number 3) (.number 4),
    .addPoint ⟨1⟩ (.number 5) (.number 0), .addArc ⟨1⟩ ⟨1⟩ ⟨2⟩ ⟨3⟩,
    .addConstraint ⟨1⟩ (.lock ⟨1⟩ (.number 0) (.number 0)),
    .addConstraint ⟨1⟩ (.pointDistance ⟨1⟩ ⟨2⟩ (.number 7)), .setReference ⟨2⟩ true,
    .addConstraint ⟨1⟩ (.horizontal ⟨1⟩ ⟨3⟩), .addConstraint ⟨1⟩ (.horizontal ⟨1⟩ ⟨9⟩)]

/-- Except for the lock, and without it, the level end and the arc write an equation each. -/
theorem writeEquations_lockedArc : (∀ t, additions lockedArc t < 2 ^ 32 - 1) ∧
    ∃ answers s all rest measured,
      (Sketch.empty Settings.rational).performAll lockedArc = .ok (answers, s) ∧
      s.writeEquations ⟨1⟩ none [] = (all, measured) ∧
      s.constraints.map (·.handle) = [⟨1⟩, ⟨2⟩, ⟨3⟩, ⟨4⟩] ∧
      s.entities.map (·.handle) = [⟨1⟩, ⟨2⟩, ⟨3⟩, ⟨4⟩] ∧
      (all.map (·.handle)).Nodup ∧ (rest.map (·.handle)).Nodup ∧
      all.map (·.handle) = [⟨.constraint ⟨1⟩, 0⟩, ⟨.constraint ⟨1⟩, 1⟩, ⟨.constraint ⟨3⟩, 0⟩,
        ⟨.entity ⟨4⟩, 0⟩] ∧
      measured.constraints.map (·.kind.label?) = [none, some (.number 5), none, none] ∧
      measured.writeEquations ⟨1⟩ none all = (all ++ all, measured) ∧
      rest.map (·.handle) = [⟨.constraint ⟨3⟩, 0⟩, ⟨.entity ⟨4⟩, 0⟩] ∧
      rest = all.filter (·.handle.origin != .constraint ⟨1⟩) ∧
      (s.writeEquations ⟨1⟩ (some ⟨1⟩) all).1 = all ++ rest ∧
      ((s.removeConstraint ⟨1⟩).writeEquations ⟨1⟩ none all).1 = all ++ rest := by
  have hfew : ∀ t, additions lockedArc t < 2 ^ 32 - 1 := by rintro (_ | _) <;> decide
  have htables : ((Sketch.empty Settings.rational).performAll lockedArc).toOption.map (fun out =>
      (out.2.constraints.map (·.handle), out.2.entities.map (·.handle))) =
      some ([⟨1⟩, ⟨2⟩, ⟨3⟩, ⟨4⟩], [⟨1⟩, ⟨2⟩, ⟨3⟩, ⟨4⟩]) := by decide +kernel
  have hwritten : ((Sketch.empty Settings.rational).performAll lockedArc).toOption.map (fun out =>
      ((out.2.writeEquations ⟨1⟩ none []).1.map (·.handle),
        (out.2.writeEquations ⟨1⟩ none []).2.constraints.map (·.kind.label?))) =
      some ([⟨.constraint ⟨1⟩, 0⟩, ⟨.constraint ⟨1⟩, 1⟩, ⟨.constraint ⟨3⟩, 0⟩, ⟨.entity ⟨4⟩, 0⟩],
        [none, some (.number 5), none, none]) := by decide +kernel
  obtain ⟨hwrites, hruns⟩ := writeEquations_except (α := Exact ℚ)
  obtain ⟨answers, s, hrun, hdistinct⟩ := hruns Settings.rational lockedArc hfew
  obtain ⟨es, happend, hexcept, hagain, hnodup⟩ := hwrites s ⟨1⟩
  obtain ⟨hfilter, hremoved⟩ := hexcept ⟨1⟩
  rw [hrun] at htables hwritten
  simp only [Except.toOption, Option.map_some, Option.some.injEq, Prod.mk.injEq, happend none,
    List.nil_append] at htables hwritten
  obtain ⟨hconstraints, hentities⟩ := htables
  obtain ⟨hhandles, hlabels⟩ := hwritten
  have hall := hdistinct ⟨1⟩ none
  rw [happend none] at hall
  have hrest := hnodup (by rw [hconstraints]; decide) (by rw [hentities]; decide) (some ⟨1⟩)
  refine ⟨hfew, answers, s, es none, es (some ⟨1⟩), _, hrun, Prod.ext (happend none []) rfl,
    hconstraints, hentities, hall, hrest, hhandles, hlabels, hagain none [] _, ?_, hfilter,
    happend _ _, congrArg Prod.fst (hremoved _)⟩
  have horigin : ((es none).map (·.handle)).filter (·.origin != .constraint ⟨1⟩) =
      [⟨.constraint ⟨3⟩, 0⟩, ⟨.entity ⟨4⟩, 0⟩] := by
    rw [hhandles]
    decide
  rw [hfilter, ← horigin, List.filter_map]
  rfl

end

end SketchSolver.Sketch
