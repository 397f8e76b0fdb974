import SketchSolver.Proofs.Arithmetic.Exact
import SketchSolver.Proofs.EquationSystem.Recovery
import SketchSolver.Proofs.EquationSystem.Substitution

/-!
# Substitution keeps the solutions

An assignment solves a system if it makes every left side zero. Substitution neither loses nor adds
a solution (`solutions_substitute`): an assignment solves the system as it was if and only if it
solves the system as rewritten and gives every substituted unknown the value of its root.

Both directions come down to the assignment being the same under the old names and the new ones. It
is if it respects the roots, since these are what the new names are; and it is if it solves the
equalities, since nothing else is identified (`eq_newName`). Copying the values of roots makes such
an assignment out of any values of the unknowns that are left (`Substitutes.value_copySubstituted`).
-/

namespace SketchSolver

namespace EquationSystem

/-! ## New names and roots -/

section
variable {s s' t : EquationSystem α} {f : ParamHandle → ParamHandle}
  {moved : ParamState → Nat → Prop}

/-- An assignment is the same under the new names if and only if it respects the roots. -/
theorem Substitutes.comp_eq_iff (hsub : Substitutes f s s') (v : ParamHandle → β) :
    (∀ x, v (f x) = v x) ↔ ∀ p ∈ s'.params, p.state = .substituted → ∀ r, p.root = some r →
      v p.handle = v r := by
  constructor
  · intro hv p hp hstate r hroot
    obtain ⟨p₀, _, hrel⟩ := forall₂_mem_of hsub.params hp
    rcases hrel.settled with ⟨_, hlive⟩ | ⟨_, hroot'⟩
    · rw [hstate] at hlive
      cases hlive
    · rw [hroot, Option.some.injEq] at hroot'
      rw [hroot', hrel.handle, hv]
  · intro hv x
    cases hunknown : s.isUnknown x with
    | false => rw [hsub.other x hunknown]
    | true =>
      obtain ⟨p, hp, rfl⟩ := isUnknown_iff.1 hunknown
      obtain ⟨p', hp', hrel⟩ := forall₂_mem hsub.params hp
      rcases hrel.settled with ⟨hname, _⟩ | ⟨hsubst, hroot⟩
      · rw [hname]
      · rw [← hv p' hp' hsubst _ hroot, hrel.handle]

/-- Copying gives every parameter the value that its new name had. -/
theorem Substitutes.value_copySubstituted [Scalar α] (hsub : Substitutes f s s')
    (hd : s.HandlesDistinct) (hframe : Frame moved s' t) (x : ParamHandle) :
    t.copySubstituted.lookup.value x = t.lookup.value (f x) := by
  have hdt : t.HandlesDistinct := hframe.handlesDistinct (hsub.handlesDistinct hd)
  have hcopy := t.frame_copySubstituted
  have hdc : t.copySubstituted.HandlesDistinct := hcopy.handlesDistinct hdt
  -- What is live after substitution keeps its value, and so do the parameters of others.
  have hlive : ∀ r ∈ s'.params, r.state = .live →
      t.copySubstituted.lookup.value r.handle = t.lookup.value r.handle := by
    intro r hr hrlive
    refine hcopy.value_eq_of_forall fun p hp hh hm => ?_
    obtain ⟨r', hr', hk⟩ := hframe.kept_mem hr
    rw [InState, hdt.param_eq hp hr' (hh.trans hk.handle.symm), hk.state, hrlive] at hm
    cases hm
  have hother : s.isUnknown x = false →
      t.copySubstituted.lookup.value x = t.lookup.value x := by
    intro hunknown
    refine hcopy.value_eq_of_forall fun p hp hpx _ => ?_
    have hin : t.isUnknown x = true := isUnknown_iff.2 ⟨p, hp, hpx⟩
    rw [hframe.isUnknown_eq, hsub.isUnknown_eq, hunknown] at hin
    cases hin
  cases hunknown : s.isUnknown x with
  | false => rw [hsub.other x hunknown, hother hunknown]
  | true =>
    obtain ⟨p, hp, rfl⟩ := isUnknown_iff.1 hunknown
    obtain ⟨p', hp', hrel⟩ := forall₂_mem hsub.params hp
    rcases hrel.settled with ⟨hname, hplive⟩ | ⟨hsubst, hroot⟩
    · rw [hname, ← hrel.handle, hlive p' hp' hplive]
    · obtain ⟨r, hr, hrname, hrlive⟩ := hsub.live p' hp'
      have hall : Frame (fun _ _ => True) s' t.copySubstituted :=
        (hframe.mono fun _ _ _ => trivial).trans (hcopy.mono fun _ _ _ => trivial)
      obtain ⟨pc, hpc, hkp⟩ := hall.kept_mem hp'
      obtain ⟨rc, hrc, hkr⟩ := hall.kept_mem hr
      have hrname' : r.handle = f p.handle := by rw [hrname, hrel.handle]
      have hvalue : pc.value = rc.value := by
        refine hdt.value_copySubstituted pc hpc ?_ rc hrc ?_ ?_
        · rw [hkp.state, hsubst]
        · rw [hkp.root, hroot, hkr.handle, hrname']
        · rw [hkr.state, hrlive]
          decide
      calc t.copySubstituted.lookup.value p.handle
          = t.copySubstituted.lookup.value pc.handle := by rw [hkp.handle, hrel.handle]
        _ = t.copySubstituted.lookup.value rc.handle := by
          rw [hdc.value_eq hpc, hvalue, hdc.value_eq hrc]
        _ = t.lookup.value (f p.handle) := by rw [hkr.handle, hlive r hr hrlive, hrname']

end

end EquationSystem

/-! ## Solutions -/

section
variable {K : Type u} [Field K] [LinearOrder K] [PartialFunctions K]

/-- The assignment makes the expression zero. -/
def Expr.Vanishes (e : Expr (Exact K)) (v : ParamHandle → K) : Prop :=
  e.eval (.byHandle fun h => .number (v h)) = .number 0

/-- A difference of two parameters is zero where they have one value. -/
theorem Expr.vanishes_sub_iff {a b : ParamHandle} {v : ParamHandle → K} :
    (Expr.binary .sub (.param a) (.param b)).Vanishes v ↔ v a = v b := by
  unfold Expr.Vanishes
  rw [Expr.eval, BinaryOp.apply, Exact.sub_eq_number]
  constructor
  · rintro ⟨x, y, hx, hy, hxy⟩
    obtain rfl : v a = x := Exact.number.inj hx
    obtain rfl : v b = y := Exact.number.inj hy
    exact sub_eq_zero.1 hxy
  · intro heq
    exact ⟨v a, v b, rfl, rfl, sub_eq_zero.2 heq⟩

namespace EquationSystem

variable {s s' t : EquationSystem (Exact K)} {f : ParamHandle → ParamHandle}

/-- Every equation has one value before and after, if the assignment is the same under the new
names. -/
theorem Substitutes.vanishes_iff (hsub : Substitutes f s s') {v : ParamHandle → K}
    (hv : ∀ x, v (f x) = v x) :
    (∀ q ∈ s.equations, q.expr.Vanishes v) ↔ ∀ q ∈ s'.equations, q.expr.Vanishes v := by
  have heach : ∀ q q', Equation.Renamed f s.isUnknown q q' →
      (q.expr.Vanishes v ↔ q'.expr.Vanishes v) := by
    intro q q' hrel
    unfold Expr.Vanishes
    rw [hrel.expr.eval]
    simp only [hv]
  constructor
  · intro h q' hq'
    obtain ⟨q, hq, hrel⟩ := forall₂_mem_of hsub.equations hq'
    exact (heach q q' hrel).1 (h q hq)
  · intro h q hq
    obtain ⟨q', hq', hrel⟩ := forall₂_mem hsub.equations hq
    exact (heach q q' hrel).2 (h q' hq')

/-- Values that solve the equations that are left solve all equations once they are copied. -/
theorem Substitutes.vanishes_copySubstituted (hsub : Substitutes f s s') (hd : s.HandlesDistinct)
    {moved : ParamState → Nat → Prop} (hframe : Frame moved s' t)
    (hlive : ∀ q ∈ s.equations, q.state = .live)
    (hnumber : ∀ p ∈ t.params, ∃ x, p.value = .number x)
    (hsolved : ∀ q ∈ t.equations, q.state = .live →
      q.expr.eval (.byHandle t.lookup.value) = .number 0) :
    ∀ q ∈ s.equations, q.expr.eval (.byHandle t.copySubstituted.lookup.value) = .number 0 := by
  intro q hq
  obtain ⟨q', hq', hrel⟩ := forall₂_mem hsub.equations hq
  rw [show t.copySubstituted.lookup.value = fun x => t.lookup.value (f x) from
    funext (hsub.value_copySubstituted hd hframe)]
  rcases hrel.state with hstate | ⟨_, a, b, hexpr, ha, _, hname⟩
  · rw [← hrel.expr.eval]
    refine hsolved q' (by rwa [hframe.equations]) ?_
    rw [hstate, hlive q hq]
  · -- An equality holds by itself, since both sides have one name.
    obtain ⟨p, hp, rfl⟩ := isUnknown_iff.1 ha
    obtain ⟨p', hp', hk⟩ := forall₂_mem hsub.params hp
    obtain ⟨r, hr, hrname, _⟩ := hsub.live p' hp'
    obtain ⟨r', hr', hkr⟩ := hframe.kept_mem hr
    obtain ⟨x, hx⟩ := hnumber r' hr'
    have hdt : t.HandlesDistinct := hframe.handlesDistinct (hsub.handlesDistinct hd)
    have hvalue : t.lookup.value (f p.handle) = .number x := by
      rw [← hk.handle, ← hrname, ← hkr.handle, hdt.value_eq hr', hx]
    rw [hexpr, Expr.eval, BinaryOp.apply, Exact.sub_eq_number]
    refine ⟨x, x, hvalue, ?_, sub_self x⟩
    rw [← hvalue]
    exact congrArg t.lookup.value hname.symm

/-- An assignment solves a system if and only if it solves the system that substitution makes of it
and gives every substituted unknown the value of its root, which is an unknown that is left. And
whatever values the unknowns get by which the equations that are left hold, by these values, copied
from the roots, all equations hold. -/
theorem solutions_substitute (hd : s.HandlesDistinct) (hparams : ∀ p ∈ s.params, p.state = .live)
    (hequations : ∀ q ∈ s.equations, q.state = .live) :
    (∀ p ∈ s.substitute.2.params, p.state = .substituted →
      ∃ r ∈ s.substitute.2.params, p.root = some r.handle ∧ r.state = .live) ∧
    (∀ v : ParamHandle → K, (∀ q ∈ s.equations, q.expr.Vanishes v) ↔
      (∀ q ∈ s.substitute.2.equations, q.expr.Vanishes v) ∧
        ∀ p ∈ s.substitute.2.params, p.state = .substituted → ∀ r, p.root = some r →
          v p.handle = v r) ∧
    ∀ t, Frame (fun _ _ => True) s.substitute.2 t →
      (∀ p ∈ t.params, ∃ x, p.value = .number x) →
      (∀ q ∈ t.equations, q.state = .live →
        q.expr.eval (.byHandle t.lookup.value) = .number 0) →
      ∀ q ∈ s.equations, q.expr.eval (.byHandle t.copySubstituted.lookup.value) = .number 0 := by
  have hsub := substitutes_substitute hd hparams
  refine ⟨fun p hp hstate => ?_, fun v => ?_, fun t hframe hnumber hsolved => ?_⟩
  · obtain ⟨p₀, _, hrel⟩ := forall₂_mem_of hsub.params hp
    obtain ⟨r, hr, hname, hlive⟩ := hsub.live p hp
    rcases hrel.settled with ⟨_, hplive⟩ | ⟨_, hroot⟩
    · rw [hstate] at hplive
      cases hplive
    · exact ⟨r, hr, by rw [hroot, hname, hrel.handle], hlive⟩
  · rw [← hsub.comp_eq_iff v]
    constructor
    · intro hsolves
      have hv : ∀ x, v (s.newName x) = v x := eq_newName fun q hq a b hexpr _ _ =>
        Expr.vanishes_sub_iff.1 (hexpr ▸ hsolves q hq)
      exact ⟨(hsub.vanishes_iff hv).1 hsolves, hv⟩
    · rintro ⟨hsolves, hv⟩
      exact (hsub.vanishes_iff hv).2 hsolves
  · exact hsub.vanishes_copySubstituted hd hframe hequations hnumber hsolved

end EquationSystem

end

namespace EquationSystem

/-- Three unknowns that are equal in a ring, one of the equalities twice; an unknown that is equal
to itself, and one that is equal to a parameter of others; and a sum. -/
def ring : EquationSystem (Exact ℚ) :=
  { empty Settings.rational with
    params := [1, 2, 3, 4, 5].map fun n => { handle := ⟨n⟩, value := .number 0 }
    foreign := [(⟨9⟩, .number 7)]
    dragged := [⟨2⟩]
    equations :=
      [.param ⟨1⟩ - .param ⟨2⟩, .param ⟨2⟩ - .param ⟨3⟩, .param ⟨3⟩ - .param ⟨1⟩,
        .param ⟨1⟩ - .param ⟨2⟩, .param ⟨4⟩ - .param ⟨4⟩, .param ⟨5⟩ - .param ⟨9⟩,
        .param ⟨1⟩ + .param ⟨4⟩ - .param ⟨5⟩].zipIdx.map fun (e, k) =>
          { handle := ⟨.constraint ⟨1⟩, k⟩, expr := e } }

/-- The ring after substitution, with values for the unknowns that are left. -/
def ringSolved : EquationSystem (Exact ℚ) :=
  ((ring.substitute.2.updateParam 1 fun p => { p with value := .number 3 }).updateParam 3
    fun p => { p with value := .number 4 }).updateParam 4 fun p => { p with value := .number 7 }

/-- The unknown that is dragged becomes the root of the ring. A solution has one value for all three
unknowns, and copying completes one that has been found for the unknowns that are left. -/
theorem solutions_ring : ring.HandlesDistinct ∧ (∀ p ∈ ring.params, p.state = .live) ∧
    (∀ q ∈ ring.equations, q.state = .live) ∧
    ring.substitute.2.params.map (fun p => (p.state, p.root)) =
      [(.substituted, some ⟨2⟩), (.live, none), (.substituted, some ⟨2⟩), (.live, none),
        (.live, none)] ∧
    (∀ v : ParamHandle → ℚ, (∀ q ∈ ring.equations, q.expr.Vanishes v) →
      ∀ p ∈ ring.substitute.2.params, p.state = .substituted → ∀ r, p.root = some r →
        v p.handle = v r) ∧
    ∀ q ∈ ring.equations,
      q.expr.eval (.byHandle ringSolved.copySubstituted.lookup.value) = .number 0 := by
  have hd : ring.HandlesDistinct := by decide +kernel
  have hparams : ∀ p ∈ ring.params, p.state = .live := by decide +kernel
  have hequations : ∀ q ∈ ring.equations, q.state = .live := by decide +kernel
  obtain ⟨_, hiff, hcopied⟩ := solutions_substitute hd hparams hequations
  refine ⟨hd, hparams, hequations, by decide +kernel, fun v hv => ((hiff v).1 hv).2, ?_⟩
  refine hcopied ringSolved ?frame ?numbers (by decide +kernel)
  case frame =>
    have hset : ∀ (t : EquationSystem (Exact ℚ)) (i : Nat) (x : ℚ), Frame (fun _ _ => True) t
        (t.updateParam i fun p => { p with value := .number x }) := fun t i x =>
      .updateParam fun _ _ => ⟨rfl, rfl, rfl, rfl, fun hm => absurd trivial hm⟩
    exact ((hset _ 1 3).trans (hset _ 3 4)).trans (hset _ 4 7)
  case numbers =>
    have hdefined : ∀ p ∈ ringSolved.params, p.value ≠ .undefined := by decide +kernel
    intro p hp
    cases hx : p.value with
    | number x => exact ⟨x, rfl⟩
    | undefined => exact absurd hx (hdefined p hp)

end EquationSystem

end SketchSolver
