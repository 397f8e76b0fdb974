import SketchSolver.Proofs.EquationSystem.NormalForm

/-!
# Substituting twice

Substitution writes the two sides of every equality in one name, and makes no other equation an
equality (`HandlesDistinct.equality?_substitute`). So the equalities of the result say of an unknown
no more than that it equals itself, every unknown is in a class of its own, and another substitution
has nothing to do (`substitute_idempotent`). This takes equations that refer to unknowns by their
handles: renaming makes a handle of a position, and so it may make an equality that was none before.
-/

namespace SketchSolver

/-- What is renamed to a difference of two parameters is such a difference. -/
theorem Expr.RenamedBy.eq_sub {f : ParamHandle → ParamHandle} {e e' : Expr α} {a b : ParamHandle}
    (he : e.RenamedBy f e') (hhandles : e.slotsBelow 0 = true)
    (hsub : e' = .binary .sub (.param a) (.param b)) :
    ∃ x y, e = .binary .sub (.param x) (.param y) ∧ f x = a ∧ f y = b := by
  have hparam : ∀ {e : Expr α} {h : ParamHandle}, e.slotsBelow 0 = true →
      e.rename f = .param h → ∃ x, e = .param x ∧ f x = h := by
    intro e h hhandles heq
    cases e with
    | param x => exact ⟨x, rfl, Expr.param.inj heq⟩
    | slot _ _ => simp [slotsBelow] at hhandles
    | const _ | unary _ _ | binary _ _ _ => cases heq
  subst hsub
  rcases he with he | ⟨rfl, rfl⟩
  · cases e with
    | binary op l r =>
      obtain ⟨rfl, hl, hr⟩ := Expr.binary.inj he
      obtain ⟨hhl, hhr⟩ := Bool.and_eq_true_iff.1 hhandles
      obtain ⟨x, rfl, hx⟩ := hparam hhl hl.symm
      obtain ⟨y, rfl, hy⟩ := hparam hhr hr.symm
      exact ⟨x, y, rfl, hx, hy⟩
    | param _ | slot _ _ | const _ | unary _ _ => cases he
  · exact ⟨a, b, rfl, rfl, rfl⟩

namespace EquationSystem

variable {s : EquationSystem α} {i j : Nat}

/-! ## Nothing to substitute -/

/-- If no equality is of two different unknowns, no unknown has a root. -/
theorem placed_eq (hself : ∀ q ∈ s.equations, ∀ i j, s.equality? q.expr = some (i, j) → i = j) :
    (s.params.zip s.roots).zipIdx = s.params.zipIdx.map fun (p, i) => ((p, none), i) := by
  refine List.ext_getElem? fun i => ?_
  cases hp : s.params[i]? with
  | some p =>
    rw [getElem?_placed hp, rootOf?_members_eq_none hself (List.getElem?_eq_some_iff.1 hp).1]
    simp [hp]
  | none =>
    have hle := List.getElem?_eq_none_iff.1 hp
    rw [List.getElem?_eq_none (by simpa [length_roots] using hle),
      List.getElem?_eq_none (by simpa using hle)]

/-- Substitution changes nothing if every equality is of an unknown with itself and has been taken
care of. -/
theorem substitute_eq_self
    (hself : ∀ q ∈ s.equations, ∀ i j, s.equality? q.expr = some (i, j) →
      i = j ∧ q.state = .satisfied)
    (hhandles : ∀ q ∈ s.equations, q.expr.slotsBelow 0 = true) : s.substitute = (0, s) := by
  unfold substitute
  split
  · rfl
  · have hplaced := placed_eq fun q hq i j heq => (hself q hq i j heq).1
    have hrenames : ∀ f : (Param α × Option Nat) × Nat → Option (ParamHandle × ParamHandle),
        (∀ p i, f ((p, none), i) = none) → (s.params.zip s.roots).zipIdx.filterMap f = [] := by
      intro f hf
      rw [hplaced, List.filterMap_map]
      exact List.filterMap_eq_nil_iff.2 fun _ _ => hf ..
    have hparams : ∀ f : (Param α × Option Nat) × Nat → Param α, (∀ p i, f ((p, none), i) = p) →
        (s.params.zip s.roots).zipIdx.map f = s.params := by
      intro f hf
      rw [hplaced, List.map_map]
      conv_rhs => rw [← List.zipIdx_map_fst 0 s.params]
      exact List.map_congr_left fun _ _ => hf ..
    have hequations : (s.equations.map fun q => { q with
        expr := q.expr.rename id
        state := if (s.equality? q.expr).isSome then .satisfied else q.state }) = s.equations := by
      conv_rhs => rw [← List.map_id s.equations]
      refine List.map_congr_left fun q hq => ?_
      rw [Expr.rename_id (hhandles q hq)]
      cases heq : s.equality? q.expr with
      | none => rfl
      | some e => exact congrArg (fun state => { q with state }) (hself q hq e.1 e.2 heq).2.symm
    dsimp only
    rw [hrenames, hparams]
    · exact congrArg (fun equations => (0, { s with equations })) hequations
    · exact fun _ _ => rfl
    · exact fun _ _ => rfl

/-! ## What is an equality after substitution -/

/-- Only an unknown gets the name of one. -/
theorem exists_position?_of_newName {h : ParamHandle} (hi : s.position? (s.newName h) = some i) :
    ∃ k, s.position? h = some k := by
  unfold newName at hi
  cases hk : s.position? h with
  | some k => exact ⟨k, rfl⟩
  | none => simp [hk] at hi

/-- After substitution an equality is of an unknown with itself, and it has been taken care of,
since it is what substitution has made of an equality. -/
theorem HandlesDistinct.equality?_substitute (hd : s.HandlesDistinct)
    (hhandles : ∀ q ∈ s.equations, q.expr.slotsBelow 0 = true) {q' : Equation α}
    (hq' : q' ∈ s.substitute.2.equations)
    (heq : s.substitute.2.equality? q'.expr = some (i, j)) : i = j ∧ q'.state = .satisfied := by
  obtain ⟨a', b', hsub, ha', hb'⟩ := equality?_eq_some heq
  rw [position?_congr (handles_substitute s)] at ha' hb'
  obtain ⟨q, hq, hrenamed, hstate⟩ := forall₂_mem_of (forall₂_equations_substitute hd) hq'
  obtain ⟨a, b, hexpr, rfl, rfl⟩ := hrenamed.expr.eq_sub (hhandles q hq) hsub
  obtain ⟨k, hk⟩ := exists_position?_of_newName ha'
  obtain ⟨l, hl⟩ := exists_position?_of_newName hb'
  have hequality : s.equality? q.expr = some (k, l) := by simp [hexpr, equality?, hk, hl]
  rw [hequality] at hstate
  refine ⟨?_, hstate⟩
  rw [newName_eq_of_equality? hq hequality hk hl, hb'] at ha'
  exact (Option.some.inj ha').symm

/-- **Substitution is idempotent.** If all unknowns have different handles and the equations refer
to them by these, a second substitution finds nothing to substitute and changes nothing. -/
theorem substitute_idempotent (hd : s.HandlesDistinct)
    (hhandles : ∀ q ∈ s.equations, q.expr.slotsBelow 0 = true) :
    s.substitute.2.substitute = (0, s.substitute.2) := by
  refine substitute_eq_self (fun q' hq' i j heq => hd.equality?_substitute hhandles hq' heq) ?_
  intro q' hq'
  obtain ⟨q, hq, hrenamed, _⟩ := forall₂_mem_of (forall₂_equations_substitute hd) hq'
  rcases hrenamed.expr with heq | ⟨_, heq⟩ <;> rw [heq]
  · exact Expr.slotsBelow_rename _ _ _
  · exact hhandles q hq

/-- Among the equations of `twoClasses` are a ring of equalities, one that is said twice, one of an
unknown with itself, and two that are none. -/
theorem idempotent_twoClasses : twoClasses.HandlesDistinct ∧
    (∀ q ∈ twoClasses.equations, q.expr.slotsBelow 0 = true) ∧ twoClasses.substitute.1 = 3 ∧
    twoClasses.substitute.2.substitute = (0, twoClasses.substitute.2) := by
  have hd : twoClasses.HandlesDistinct := by decide +kernel
  have hhandles : ∀ q ∈ twoClasses.equations, q.expr.slotsBelow 0 = true := by decide +kernel
  exact ⟨hd, hhandles, by decide +kernel, substitute_idempotent hd hhandles⟩

/-- The first equation becomes an equality when the second one is substituted. -/
example :
    let s : EquationSystem (Exact ℚ) :=
      { empty Settings.rational with
        params := [1, 2, 3].map fun n => { handle := ⟨n⟩, value := .number 0 }
        equations := [.slot ⟨1⟩ 0 - .param ⟨2⟩, .param ⟨1⟩ - .param ⟨3⟩].zipIdx.map fun (e, k) =>
          { handle := ⟨.constraint ⟨1⟩, k⟩, expr := e } }
    s.substitute.1 = 1 ∧ s.substitute.2.substitute.1 = 1 := by
  decide +kernel

end EquationSystem
end SketchSolver
