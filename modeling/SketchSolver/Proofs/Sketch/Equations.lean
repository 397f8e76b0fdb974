import SketchSolver.Sketch.Solve
import SketchSolver.Proofs.Solve.Conflicts

/-!
# What a check sees of a sketch

Two sketches look the same to a check of a group (`Sketch.LooksSame`) if they differ in nothing but
what the check leaves out: labels of reference dimensions of the group, marks on parameters,
statuses of groups, and values hidden by a later parameter of the same handle. Such sketches write
the same equations (`LooksSame.groupEquations_eq`), so what is loaded from them agrees.

Writing equations measures reference dimensions, which is all that it changes, and the result looks
the same (`looksSame_measureReferences`). Without a constraint a sketch writes the equations that it
has except for those of the constraint (`groupEquations_removeConstraint`).
-/

namespace SketchSolver

/-! ## Labels -/

namespace Constraint

variable {g : GroupHandle} {policy : Policy} {c c' c'' : Constraint α}

@[simp] theorem handle_withLabel (x : α) (c : Constraint α) : (c.withLabel x).handle = c.handle :=
  rfl

@[simp] theorem group_withLabel (x : α) (c : Constraint α) : (c.withLabel x).group = c.group := rfl

/-- The last label counts. -/
@[simp] theorem withLabel_withLabel (x y : α) (c : Constraint α) :
    (c.withLabel x).withLabel y = c.withLabel y := by
  unfold withLabel
  cases c.kind <;> rfl

/-- A reference dimension is one under any label. -/
@[simp] theorem isReference_withLabel (x : α) (c : Constraint α) :
    (c.withLabel x).isReference policy = c.isReference policy := by
  unfold isReference isLabelled withLabel
  cases c.kind <;> rfl

/-- A coincidence is one under any label. -/
@[simp] theorem isCoincident_withLabel (x : α) (c : Constraint α) :
    (c.withLabel x).isCoincident = c.isCoincident := by
  unfold isCoincident withLabel
  cases c.kind <;> rfl

/-- Two constraints are the same, but for the label if it is that of a reference dimension of the
group. -/
def LooksSame (g : GroupHandle) (policy : Policy) (c c' : Constraint α) : Prop :=
  c' = c ∨ c.group = g ∧ c.isReference policy = true ∧ ∃ x, c' = c.withLabel x

/-- A constraint looks the same as itself. -/
theorem LooksSame.refl (g : GroupHandle) (policy : Policy) (c : Constraint α) :
    LooksSame g policy c c :=
  Or.inl rfl

/-- Constraints that look the same as a third one look the same. -/
theorem LooksSame.trans (h : LooksSame g policy c c') (h' : LooksSame g policy c' c'') :
    LooksSame g policy c c'' := by
  rcases h with rfl | ⟨hg, href, x, rfl⟩
  · exact h'
  · rcases h' with rfl | ⟨_, _, y, rfl⟩
    · exact Or.inr ⟨hg, href, x, rfl⟩
    · exact Or.inr ⟨hg, href, y, withLabel_withLabel x y c⟩

/-- Constraints that look the same have all but the label in common. -/
theorem LooksSame.eq (h : LooksSame g policy c c') : c'.handle = c.handle ∧ c'.group = c.group ∧
    c'.isReference policy = c.isReference policy ∧ c'.isCoincident = c.isCoincident := by
  rcases h with rfl | ⟨_, _, x, rfl⟩
  · exact ⟨rfl, rfl, rfl, rfl⟩
  · simp

end Constraint

/-- Lists of elements that are related are filtered to the same list, if those that differ are
filtered out. -/
theorem filter_eq_of_forall₂ {R : β → β → Prop} {p : β → Bool}
    (hR : ∀ x y, R x y → p y = p x ∧ (p x = true → y = x)) :
    ∀ {l l' : List β}, List.Forall₂ R l l' → l'.filter p = l.filter p
  | _, _, .nil => rfl
  | x :: _, y :: _, .cons hxy hrest => by
    obtain ⟨hp, heq⟩ := hR x y hxy
    have ih := filter_eq_of_forall₂ hR hrest
    cases hx : p x with
    | true => rw [List.filter_cons_of_pos hx, List.filter_cons_of_pos (by rw [hp, hx]), ih, heq hx]
    | false =>
      have hy : p y = false := by rw [hp, hx]
      simp [hx, hy, ih]

namespace Sketch

variable {g : GroupHandle} {policy : Policy} {s s' s'' : Sketch α}

/-! ## Geometry -/

/-- Geometry is a matter of the entities. -/
theorem point?_congr (h : s'.entities = s.entities) : s'.point? = s.point? := by
  funext e
  simp only [point?, entity?, h]

/-- Circles are a matter of the entities. -/
theorem circle?_congr (h : s'.entities = s.entities) : s'.circle? = s.circle? := by
  funext e
  simp only [circle?, entity?, h, point?_congr h]

/-- The length of a segment is a matter of the entities. -/
theorem segmentLength?_congr (h : s'.entities = s.entities) :
    s'.segmentLength? = s.segmentLength? := by
  funext ends
  simp only [segmentLength?, point?_congr h]

/-- The equations of an entity are a matter of the entities. -/
theorem entityEquations_congr (h : s'.entities = s.entities) :
    s'.entityEquations = s.entityEquations := by
  funext e
  simp only [entityEquations, segmentLength?_congr h]

/-- The equations of a constraint are a matter of the entities and of the constraint itself. -/
theorem constraintEquations_congr [Scalar α] (h : s'.entities = s.entities) :
    s'.constraintEquations = s.constraintEquations := by
  funext c
  unfold constraintEquations constraintEquations?
  rw [point?_congr h, circle?_congr h, segmentLength?_congr h]

/-! ## Sketches that look the same -/

section
variable [Scalar α]

/-- Two sketches look the same to a check of the group, which has the given policy. -/
structure LooksSame (g : GroupHandle) (policy : Policy) (s s' : Sketch α) : Prop where
  settings : s'.settings = s.settings
  hasPolicy : (s'.group? g).map (·.policy) = (s.group? g).map (·.policy)
  entities : s'.entities = s.entities
  constraints : List.Forall₂ (Constraint.LooksSame g policy) s.constraints s'.constraints
  handles : (Document.params s' g).map Prod.fst = (Document.params s g).map Prod.fst
  own : ∀ x, EquationSystem.lastValue? (Document.params s' g) x =
    EquationSystem.lastValue? (Document.params s g) x
  other : ∀ x, x ∉ (Document.params s g).map Prod.fst →
    Document.paramValue? s' x = Document.paramValue? s x

namespace LooksSame

/-- A sketch looks the same as itself. -/
theorem refl (g : GroupHandle) (policy : Policy) (s : Sketch α) : LooksSame g policy s s where
  settings := rfl
  hasPolicy := rfl
  entities := rfl
  constraints := List.forall₂_same.2 fun c _ => .refl g policy c
  handles := rfl
  own _ := rfl
  other _ _ := rfl

/-- Sketches look the same if each looks the same as one in between. -/
theorem trans (h : LooksSame g policy s s') (h' : LooksSame g policy s' s'') :
    LooksSame g policy s s'' where
  settings := h'.settings.trans h.settings
  hasPolicy := h'.hasPolicy.trans h.hasPolicy
  entities := h'.entities.trans h.entities
  constraints := forall₂_trans (fun _ _ _ hxy hyz => hxy.trans hyz) h.constraints h'.constraints
  handles := h'.handles.trans h.handles
  own x := (h'.own x).trans (h.own x)
  other x hx := (h'.other x (by rwa [h.handles])).trans (h.other x hx)

end LooksSame

/-! ## Equations -/

/-- Sketches that look the same write the same equations. -/
theorem LooksSame.groupEquations_eq (h : LooksSame g policy s s')
    (except : Option ConstraintHandle) :
    s'.groupEquations g policy except = s.groupEquations g policy except := by
  unfold groupEquations
  rw [constraintEquations_congr h.entities, entityEquations_congr h.entities, h.entities]
  refine congrArg (List.flatMap _ · ++ _) (filter_eq_of_forall₂ (fun c c' hc => ?_) h.constraints)
  obtain ⟨hhandle, hgroup, href, hcoincident⟩ := hc.eq
  refine ⟨by simp only [isAsked, hhandle, hgroup, href, hcoincident], fun hasked => ?_⟩
  rcases hc with heq | ⟨_, hreference, _⟩
  · exact heq
  · simp [hreference] at hasked

omit [Scalar α] in
/-- All are asked for but the excepted one. -/
theorem isAsked_some (g : GroupHandle) (c : ConstraintHandle) (k : Constraint α) :
    isAsked g (some c) k = (isAsked g none k && k.handle != c) := by
  have hnone : (some k.handle != none) = true := rfl
  have hsome : (some k.handle != some c) = (k.handle != c) := rfl
  rw [isAsked, isAsked, hnone, hsome, Bool.and_true]

/-- Without a constraint, a sketch writes the equations of all others. -/
theorem groupEquations_removeConstraint (s : Sketch α) (c : ConstraintHandle) :
    (s.removeConstraint c).groupEquations g policy none = s.groupEquations g policy (some c) := by
  have hentities : (s.removeConstraint c).entities = s.entities := rfl
  unfold groupEquations
  rw [constraintEquations_congr hentities, entityEquations_congr hentities, hentities]
  refine congrArg (List.flatMap _ · ++ _) ?_
  rw [removeConstraint, List.filter_filter]
  refine List.filter_congr fun k _ => ?_
  rw [isAsked_some]
  cases k.handle != c <;> simp

/-! ## Measures -/

/-- Measuring reference dimensions changes labels only. -/
theorem looksSame_measureReferences (s : Sketch α) (except : Option ConstraintHandle) :
    LooksSame g policy s (s.measureReferences g policy except) where
  settings := rfl
  hasPolicy := rfl
  entities := rfl
  constraints := by
    rw [measureReferences, List.forall₂_map_right_iff, List.forall₂_same]
    intro c _
    split
    · next hc =>
      unfold remeasured
      split
      · next x _ =>
        simp only [isAsked, Bool.and_eq_true, beq_iff_eq] at hc
        exact Or.inr ⟨hc.1.1, hc.2, x, rfl⟩
      · exact .refl g policy c
    · exact .refl g policy c
  handles := rfl
  own _ := rfl
  other _ _ := rfl

end

end Sketch

end SketchSolver
