import Mathlib.Logic.Equiv.Fin.Basic
import SketchSolver.Proofs.Arithmetic.Exact
import SketchSolver.Proofs.EquationSystem.Substitution

/-!
# The order of equalities

The representatives of the classes depend on the order in which equalities are found, and on their
sides, but the classes do not, as they are determined by which unknowns are said to be equal
(`SameEqualities.rep_eq_rep_iff`). The root of a class is chosen among its members in the order of
the table, so the roots are the same in any order (`SameEqualities.roots_eq`), and with them all
that substitution writes. `substitute_reordered` says so of every permutation of the equations and
every choice of equalities to be turned around.
-/

namespace SketchSolver.EquationSystem

variable {s t : EquationSystem α} {i j : Nat}

/-! ## Systems of the same equalities -/

/-- Some equation says that the unknowns at two positions are equal, in either order. -/
def Equates (s : EquationSystem α) (i j : Nat) : Prop :=
  ∃ q ∈ s.equations, s.equality? q.expr = some (i, j) ∨ s.equality? q.expr = some (j, i)

/-- The systems have the same unknowns, drag the same ones, and say of the same ones that they are
equal. -/
structure SameEqualities (s t : EquationSystem α) : Prop where
  params : t.params = s.params
  dragged : t.dragged = s.dragged
  equates : ∀ i j, t.Equates i j ↔ s.Equates i j

/-- The relation is symmetric. -/
theorem SameEqualities.symm (h : SameEqualities s t) : SameEqualities t s where
  params := h.params.symm
  dragged := h.dragged.symm
  equates i j := (h.equates i j).symm

/-- Systems of the same equalities resolve handles alike, so they recognize the same ones. -/
theorem SameEqualities.equality?_eq (h : SameEqualities s t) (e : Expr α) :
    t.equality? e = s.equality? e := by
  unfold equality? position?
  rw [h.params]

/-- Unknowns of one class are of one class in a system of the same equalities. -/
theorem SameEqualities.rep_eq_rep (h : SameEqualities s t) (hi : i < s.params.length)
    (hj : j < s.params.length) (hrep : s.classes.rep i = s.classes.rep j) :
    t.classes.rep i = t.classes.rep j := by
  obtain ⟨_, _, hjoined⟩ := t.classes_spec
  refine eq_of_rep_classes (v := t.classes.rep) (fun q hq i j heq => ?_) hi hj hrep
  obtain ⟨q', hq', heq' | heq'⟩ := (h.equates i j).2 ⟨q, hq, Or.inl heq⟩
  · exact hjoined q' hq' i j heq'
  · exact (hjoined q' hq' j i heq').symm

/-- The classes are those of any system of the same equalities. -/
theorem SameEqualities.rep_eq_rep_iff (h : SameEqualities s t) (hi : i < s.params.length)
    (hj : j < s.params.length) :
    t.classes.rep i = t.classes.rep j ↔ s.classes.rep i = s.classes.rep j := by
  refine ⟨fun hrep => ?_, h.rep_eq_rep hi hj⟩
  rw [← h.params] at hi hj
  exact h.symm.rep_eq_rep hi hj hrep

/-- The class of an unknown has the same members in both systems. -/
theorem SameEqualities.members_eq (h : SameEqualities s t) (hi : i < s.params.length) :
    t.members (t.classes.rep i) = s.members (s.classes.rep i) := by
  unfold members
  rw [h.params]
  refine List.filter_congr fun j hj => ?_
  rw [Bool.eq_iff_iff, beq_iff_eq, beq_iff_eq]
  exact h.rep_eq_rep_iff (List.mem_range.1 hj) hi

/-- The classes have the same roots. -/
theorem SameEqualities.rootOf?_eq (h : SameEqualities s t) : t.rootOf? = s.rootOf? := by
  have hdragged : t.isDraggedAt = s.isDraggedAt := by
    unfold isDraggedAt isDragged
    rw [h.params, h.dragged]
  funext l
  unfold rootOf?
  rw [hdragged]

/-- The roots do not depend on the representatives. -/
theorem SameEqualities.roots_eq (h : SameEqualities s t) : t.roots = s.roots := by
  refine List.ext_getElem? fun i => ?_
  by_cases hi : i < s.params.length
  · rw [getElem?_roots hi, getElem?_roots (by rwa [h.params]), h.members_eq hi, h.rootOf?_eq]
  · have hlength : t.roots.length = s.roots.length := by
      rw [length_roots, length_roots, h.params]
    rw [List.getElem?_eq_none (by rw [hlength, length_roots]; omega),
      List.getElem?_eq_none (by rw [length_roots]; omega)]

/-- What takes the place of an unknown is determined by the table and the root. -/
theorem SameEqualities.replacement?_eq (h : SameEqualities s t) :
    t.replacement? = s.replacement? := by
  funext i root
  unfold replacement?
  rw [h.params]

/-- The same unknowns are substituted, by the same roots. -/
theorem SameEqualities.substituteParam_eq (h : SameEqualities s t) :
    t.substituteParam = s.substituteParam := by
  funext p i root
  unfold substituteParam
  rw [h.replacement?_eq]

/-- A system has equalities if one of the same equalities has. -/
theorem SameEqualities.all_isNone (h : SameEqualities s t)
    (hnone : (s.equations.all fun q => (s.equality? q.expr).isNone) = true) :
    (t.equations.all fun q => (t.equality? q.expr).isNone) = true := by
  rw [List.all_eq_true] at hnone ⊢
  intro q hq
  rw [Option.isNone_iff_eq_none]
  cases heq : t.equality? q.expr with
  | none => rfl
  | some e =>
    obtain ⟨q', hq', heq' | heq'⟩ := (h.equates e.1 e.2).1 ⟨q, hq, Or.inl heq⟩
    · simpa [heq'] using hnone q' hq'
    · simpa [heq'] using hnone q' hq'

/-- If one of the systems says of no unknowns that they are equal, neither does the other. -/
theorem SameEqualities.all_isNone_eq (h : SameEqualities s t) :
    (t.equations.all fun q => (t.equality? q.expr).isNone) =
      s.equations.all fun q => (s.equality? q.expr).isNone :=
  Bool.eq_iff_iff.2 ⟨h.symm.all_isNone, h.all_isNone⟩

/-- Systems of the same equalities substitute the same unknowns by the same ones. -/
theorem SameEqualities.substitute_params (h : SameEqualities s t) :
    t.substitute.1 = s.substitute.1 ∧ t.substitute.2.params = s.substitute.2.params := by
  unfold substitute
  rw [h.all_isNone_eq, h.params, h.roots_eq, h.replacement?_eq, h.substituteParam_eq]
  split
  · exact ⟨rfl, h.params⟩
  · exact ⟨rfl, rfl⟩

/-! ## Equations after substitution -/

/-- Handles have the same new names. -/
theorem SameEqualities.newName_eq (h : SameEqualities s t) : t.newName = s.newName := by
  funext x
  unfold newName
  have hposition : t.position? x = s.position? x := by
    unfold position?
    rw [h.params]
  rw [hposition]
  cases hi : s.position? x with
  | none => rfl
  | some i =>
    simp only [rootAt, h.members_eq (position?_lt hi), h.rootOf?_eq, h.params]

/-- An equation becomes the same in both systems. -/
theorem SameEqualities.substituteEquation_eq (h : SameEqualities s t) :
    t.substituteEquation = s.substituteEquation := by
  funext q
  unfold substituteEquation
  rw [h.newName_eq, h.equality?_eq]

/-! ## Equalities turned around -/

/-- The equation with its sides swapped, if it says that two unknowns are equal. -/
def swapSides (s : EquationSystem α) (q : Equation α) : Equation α :=
  match q.expr with
  | .binary .sub (.param a) (.param b) =>
    if s.isUnknown a && s.isUnknown b then { q with expr := .binary .sub (.param b) (.param a) }
    else q
  | _ => q

/-- Swapping changes equalities only, of which it swaps the positions. -/
theorem swapSides_cases (s : EquationSystem α) (q : Equation α) :
    s.equality? q.expr = none ∧ s.swapSides q = q ∨
      ∃ a b i j, q.expr = .binary .sub (.param a) (.param b) ∧
        s.equality? q.expr = some (i, j) ∧
        s.swapSides q = { q with expr := .binary .sub (.param b) (.param a) } ∧
        s.equality? (s.swapSides q).expr = some (j, i) := by
  cases heq : s.equality? q.expr with
  | some e =>
    obtain ⟨i, j⟩ := e
    obtain ⟨a, b, hexpr, ha, hb⟩ := equality?_eq_some heq
    have hswap : s.swapSides q = { q with expr := .binary .sub (.param b) (.param a) } := by
      simp only [swapSides, hexpr, isUnknown, ha, hb, Option.isSome_some, Bool.and_self, if_true]
    refine Or.inr ⟨a, b, i, j, hexpr, rfl, hswap, ?_⟩
    rw [hswap]
    simp [equality?, ha, hb]
  | none =>
    refine Or.inl ⟨rfl, ?_⟩
    unfold swapSides
    split
    · next a b hexpr =>
      rw [hexpr] at heq
      split
      · next hunknown =>
        rw [Bool.and_eq_true, isUnknown, isUnknown, Option.isSome_iff_exists,
          Option.isSome_iff_exists] at hunknown
        obtain ⟨⟨i, hi⟩, j, hj⟩ := hunknown
        simp [equality?, hi, hj] at heq
      · rfl
    · rfl

/-- An equality turned around says that the same unknowns are equal. -/
theorem equality?_swapSides_iff (q : Equation α) :
    s.equality? (s.swapSides q).expr = some (i, j) ∨
        s.equality? (s.swapSides q).expr = some (j, i) ↔
      s.equality? q.expr = some (i, j) ∨ s.equality? q.expr = some (j, i) := by
  rcases s.swapSides_cases q with ⟨_, hsame⟩ | ⟨a, b, i', j', _, heq, _, hswap⟩
  · rw [hsame]
  · rw [hswap, heq]
    simp only [Option.some.injEq, Prod.mk.injEq]
    tauto

/-- Substitution makes the same of an equality and of the one turned around, since its unknowns get
one name. -/
theorem substituteEquation_swapSides {q : Equation α} (hq : q ∈ s.equations) :
    s.substituteEquation (s.swapSides q) = s.substituteEquation q := by
  rcases s.swapSides_cases q with ⟨_, hsame⟩ | ⟨a, b, i, j, hexpr, heq, hswap, heq'⟩
  · rw [hsame]
  · obtain ⟨a', b', hexpr', ha, hb⟩ := equality?_eq_some heq
    rw [hexpr] at hexpr'
    cases hexpr'
    have hname := newName_eq_of_equality? hq heq ha hb
    unfold substituteEquation
    rw [heq', heq, hswap, hexpr]
    simp only [Expr.rename, Expr.bindParams, hname, Option.isSome_some]

/-! ## Any order -/

/-- The system with its equations in another order, and some of its equalities turned around. -/
def reordered (s : EquationSystem α) (σ : Equiv.Perm (Fin s.equations.length))
    (swapped : Fin s.equations.length → Bool) : EquationSystem α :=
  { s with
    equations := List.ofFn fun k =>
      if swapped k then s.swapSides (s.equations.get (σ k)) else s.equations.get (σ k) }

/-- Reordering changes none of the equalities but for their sides. -/
theorem sameEqualities_reordered (σ : Equiv.Perm (Fin s.equations.length))
    (swapped : Fin s.equations.length → Bool) : SameEqualities s (s.reordered σ swapped) := by
  have hsides : ∀ (b : Bool) (q : Equation α) (i j : Nat),
      s.equality? (if b then s.swapSides q else q).expr = some (i, j) ∨
          s.equality? (if b then s.swapSides q else q).expr = some (j, i) ↔
        s.equality? q.expr = some (i, j) ∨ s.equality? q.expr = some (j, i) := by
    intro b q i j
    cases b with
    | true => exact equality?_swapSides_iff q
    | false => exact Iff.rfl
  refine ⟨rfl, rfl, fun i j => ⟨?_, ?_⟩⟩
  · rintro ⟨q, hq, heq⟩
    obtain ⟨k, rfl⟩ := List.mem_ofFn.1 hq
    exact ⟨s.equations.get (σ k), List.get_mem .., (hsides ..).1 heq⟩
  · rintro ⟨q, hq, heq⟩
    obtain ⟨k, rfl⟩ := List.mem_iff_get.1 hq
    refine ⟨_, List.mem_ofFn.2 ⟨σ.symm k, rfl⟩, (hsides ..).2 ?_⟩
    rwa [Equiv.apply_symm_apply]

/-- **Substitution does not depend on the order of the equalities.** For every order of the
equations of a system and every choice of equalities whose sides are swapped, as many unknowns are
substituted, the table of unknowns is the same afterwards, and every equation has the state and the
expression that it has in the original order; that goes for the equalities as well, both sides of
which are the root of their class. -/
theorem substitute_reordered (hd : s.HandlesDistinct)
    (σ : Equiv.Perm (Fin s.equations.length)) (swapped : Fin s.equations.length → Bool) :
    (s.reordered σ swapped).substitute.1 = s.substitute.1 ∧
      (s.reordered σ swapped).substitute.2.params = s.substitute.2.params ∧
      ∀ k : Fin s.equations.length,
        (s.reordered σ swapped).substitute.2.equations[(k : Nat)]? =
          s.substitute.2.equations[(σ k : Nat)]? := by
  have hsame := sameEqualities_reordered σ swapped
  obtain ⟨hcount, hparams⟩ := hsame.substitute_params
  refine ⟨hcount, hparams, fun k => ?_⟩
  have hk : (s.reordered σ swapped).equations[(k : Nat)]? = some
      (if swapped k then s.swapSides (s.equations.get (σ k)) else s.equations.get (σ k)) := by
    simp [reordered]
  have hσ : s.equations[(σ k : Nat)]? = some (s.equations.get (σ k)) :=
    List.getElem?_eq_getElem (σ k).isLt
  have hmem : s.equations.get (σ k) ∈ s.equations := List.get_mem ..
  rw [equations_substitute (s := s.reordered σ swapped) hd, equations_substitute hd,
    hsame.all_isNone_eq, hsame.substituteEquation_eq]
  split
  · next hnone =>
    -- Without equalities there is nothing to swap, and nothing is renamed.
    rw [List.all_eq_true] at hnone
    have hnot : s.swapSides (s.equations.get (σ k)) = s.equations.get (σ k) := by
      have hnone := hnone _ hmem
      rcases s.swapSides_cases (s.equations.get (σ k)) with ⟨_, hsame⟩ | ⟨_, _, _, _, _, heq, _⟩
      · exact hsame
      · rw [heq] at hnone
        cases hnone
    rw [hk, hσ, hnot, ite_self]
  · rw [List.getElem?_map, List.getElem?_map, hk, hσ, Option.map_some, Option.map_some]
    split
    · rw [substituteEquation_swapSides hmem]
    · rfl

/-- Three unknowns that are equal in a ring, the second of which is dragged, and an equation of the
first one and of a fourth. -/
def triangle : EquationSystem (Exact ℚ) :=
  { empty Settings.rational with
    params := [1, 2, 3, 4].map fun n => { handle := ⟨n⟩, value := .number 0 }
    dragged := [⟨2⟩]
    equations :=
      [.param ⟨1⟩ - .param ⟨2⟩, .param ⟨2⟩ - .param ⟨3⟩, .param ⟨3⟩ - .param ⟨1⟩,
        .param ⟨1⟩ + .param ⟨4⟩].zipIdx.map fun (e, k) =>
          { handle := ⟨.constraint ⟨1⟩, k⟩, expr := e } }

/-- The triangle backwards, every equality turned around: the third unknown represents the class in
the one order and the second one in the other, and yet the unknown that is dragged is the root in
both. -/
theorem substitute_triangle : triangle.HandlesDistinct ∧
    triangle.classes.representatives = [2, 2, 2, 3] ∧
    (triangle.reordered Fin.revPerm fun _ => true).classes.representatives = [1, 1, 1, 3] ∧
    (triangle.reordered Fin.revPerm fun _ => true).substitute.1 = 2 ∧
    (triangle.reordered Fin.revPerm fun _ => true).substitute.2.params.map (·.root) =
      [some ⟨2⟩, none, some ⟨2⟩, none] ∧
    ((triangle.reordered Fin.revPerm fun _ => true).substitute.2.equations[0]?).map (·.expr) =
      some (.param ⟨2⟩ + .param ⟨4⟩) := by
  have hd : triangle.HandlesDistinct := by decide +kernel
  obtain ⟨hcount, hparams, hequations⟩ :=
    substitute_reordered hd Fin.revPerm fun _ => true
  have h₀ := hequations ⟨0, by decide⟩
  refine ⟨hd, by decide +kernel, by decide +kernel, ?_, ?_, ?_⟩
  · rw [hcount]
    decide +kernel
  · rw [hparams]
    decide +kernel
  · rw [h₀]
    decide +kernel

end SketchSolver.EquationSystem
