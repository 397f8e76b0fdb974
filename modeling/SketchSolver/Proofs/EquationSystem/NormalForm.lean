import Mathlib.Logic.Relation
import SketchSolver.Proofs.Arithmetic.Exact
import SketchSolver.Proofs.EquationSystem.Substitution

/-!
# The normal form of substitution

The differences of two unknowns among the equations connect unknowns (`SaysEqual`), and what they
connect, directly or through others, is one class of the partition (`HandlesDistinct.inClass_iff`).
Which member of a class is its root is a matter of the table and of what is dragged (`IsRoot`).
After substitution the root is live and all others point to it, and every equation is written in
terms of roots (`NormalForm`). `substitute_normalForm` says so of every system that is all live.
-/

namespace SketchSolver.EquationSystem

variable {s : EquationSystem α} {i j k r : Nat} {a b : ParamHandle}

/-! ## What the equations say -/

/-- The expression is the difference of two unknowns. -/
def IsEquality (s : EquationSystem α) (e : Expr α) : Prop :=
  ∃ a b, e = .binary .sub (.param a) (.param b) ∧ s.isUnknown a = true ∧ s.isUnknown b = true

/-- Some equation is the difference of the two unknowns. -/
def SaysEqual (s : EquationSystem α) (a b : ParamHandle) : Prop :=
  s.isUnknown a = true ∧ s.isUnknown b = true ∧
    ∃ q ∈ s.equations, q.expr = .binary .sub (.param a) (.param b)

/-- Equations connect the unknowns at the two positions. -/
def InClass (s : EquationSystem α) (i j : Nat) : Prop :=
  ∃ p q, s.params[i]? = some p ∧ s.params[j]? = some q ∧
    Relation.EqvGen s.SaysEqual p.handle q.handle

/-- The root of the class of an unknown is its first member that is dragged, in the order of the
table, or its last member if none is. -/
structure IsRoot (s : EquationSystem α) (i r : Nat) : Prop where
  member : s.InClass i r
  chosen : (s.isDraggedAt r = true ∧ ∀ j, s.InClass i j → s.isDraggedAt j = true → r ≤ j) ∨
    ∀ j, s.InClass i j → s.isDraggedAt j = false ∧ j ≤ r

/-- An equality is recognized where there is one. -/
theorem isSome_equality?_iff {e : Expr α} : (s.equality? e).isSome = true ↔ s.IsEquality e := by
  rw [Option.isSome_iff_exists]
  constructor
  · rintro ⟨⟨i, j⟩, heq⟩
    obtain ⟨a, b, hexpr, ha, hb⟩ := equality?_eq_some heq
    exact ⟨a, b, hexpr, by simp [isUnknown, ha], by simp [isUnknown, hb]⟩
  · rintro ⟨a, b, rfl, ha, hb⟩
    obtain ⟨i, hi⟩ := Option.isSome_iff_exists.1 ha
    obtain ⟨j, hj⟩ := Option.isSome_iff_exists.1 hb
    exact ⟨(i, j), by simp [equality?, hi, hj]⟩

/-! ## Classes -/

/-- Unknowns of a class are in the table. -/
theorem InClass.lt (h : s.InClass i j) : i < s.params.length ∧ j < s.params.length := by
  obtain ⟨p, q, hp, hq, _⟩ := h
  exact ⟨(List.getElem?_eq_some_iff.1 hp).1, (List.getElem?_eq_some_iff.1 hq).1⟩

/-- An unknown is in a class with itself. -/
theorem InClass.refl (hi : i < s.params.length) : s.InClass i i :=
  ⟨_, _, List.getElem?_eq_getElem hi, List.getElem?_eq_getElem hi, .refl _⟩

/-- Unknowns that equations connect have one representative. -/
theorem map_rep_position?_eq (h : Relation.EqvGen s.SaysEqual a b) :
    (s.position? a).map s.classes.rep = (s.position? b).map s.classes.rep := by
  obtain ⟨_, _, hjoined⟩ := s.classes_spec
  refine congrArg (Quot.lift (fun h => (s.position? h).map s.classes.rep) ?_) (Quot.eqvGen_sound h)
  rintro a b ⟨ha, hb, q, hq, hexpr⟩
  obtain ⟨i, hi⟩ := Option.isSome_iff_exists.1 ha
  obtain ⟨j, hj⟩ := Option.isSome_iff_exists.1 hb
  have hrep := hjoined q hq i j (by simp [hexpr, equality?, hi, hj])
  rw [hi, hj, Option.map_some, Option.map_some, hrep]

/-- Two unknowns have one representative exactly if equations connect them. -/
theorem HandlesDistinct.inClass_iff (hd : s.HandlesDistinct) (hi : i < s.params.length)
    (hj : j < s.params.length) : s.InClass i j ↔ s.classes.rep i = s.classes.rep j := by
  have hp := List.getElem?_eq_getElem hi
  have hq := List.getElem?_eq_getElem hj
  constructor
  · rintro ⟨p, q, hp, hq, hconnected⟩
    have hrep := map_rep_position?_eq hconnected
    rw [hd.position?_eq_some_iff.2 ⟨p, hp, rfl⟩, hd.position?_eq_some_iff.2 ⟨q, hq, rfl⟩] at hrep
    exact Option.some.inj hrep
  · intro hrep
    -- What equations connect with a handle is one for the unknowns of every equality.
    have hclass : (s.params[i]?).map (fun p => Quot.mk s.SaysEqual p.handle) =
        (s.params[j]?).map fun p => Quot.mk s.SaysEqual p.handle := by
      refine eq_of_rep_classes (v := fun i => (s.params[i]?).map fun p => Quot.mk _ p.handle)
        (fun e he i j heq => ?_) hi hj hrep
      obtain ⟨a, b, hexpr, ha, hb⟩ := equality?_eq_some heq
      obtain ⟨p, hp, rfl⟩ := exists_of_position? ha
      obtain ⟨q, hq, rfl⟩ := exists_of_position? hb
      rw [hp, hq, Option.map_some, Option.map_some]
      exact congrArg some
        (Quot.sound ⟨by simp [isUnknown, ha], by simp [isUnknown, hb], e, he, hexpr⟩)
    rw [hp, hq, Option.map_some, Option.map_some, Option.some.injEq] at hclass
    exact ⟨_, _, hp, hq, Quot.eqvGen_exact hclass⟩

/-- The members of a class are what equations connect. -/
theorem HandlesDistinct.mem_members_iff (hd : s.HandlesDistinct) (hi : i < s.params.length) :
    j ∈ s.members (s.classes.rep i) ↔ s.InClass i j := by
  rw [mem_members]
  constructor
  · rintro ⟨hj, hrep⟩
    exact (hd.inClass_iff hi hj).2 hrep.symm
  · intro h
    exact ⟨h.lt.2, ((hd.inClass_iff hi h.lt.2).1 h).symm⟩

/-! ## Roots -/

/-- Of a list in the order of the table, the root is the first element that is dragged, or the last
one if none is. -/
theorem rootOf?_eq_some {l : List Nat} (hl : l.Pairwise (· < ·)) (hr : s.rootOf? l = some r) :
    (s.isDraggedAt r = true ∧ ∀ j ∈ l, s.isDraggedAt j = true → r ≤ j) ∨
      ∀ j ∈ l, s.isDraggedAt j = false ∧ j ≤ r := by
  unfold rootOf? at hr
  split at hr
  · cases hr
  · cases hr
  · split at hr
    · next hfind =>
      obtain rfl := Option.some.inj hr
      obtain ⟨hdragged, before, after, rfl, hbefore⟩ := List.find?_eq_some_iff_append.1 hfind
      obtain ⟨_, hafter, _⟩ := List.pairwise_append.1 hl
      refine Or.inl ⟨hdragged, fun j hj hjdragged => ?_⟩
      rcases List.mem_append.1 hj with hj | hj
      · exact absurd hjdragged (by simpa using hbefore j hj)
      · rcases List.mem_cons.1 hj with rfl | hj
        · exact Nat.le_refl _
        · exact Nat.le_of_lt ((List.pairwise_cons.1 hafter).1 j hj)
    · next hfind =>
      obtain ⟨before, rfl⟩ := List.getLast?_eq_some_iff.1 hr
      obtain ⟨_, _, hlast⟩ := List.pairwise_append.1 hl
      refine Or.inr fun j hj => ⟨by simpa using List.find?_eq_none.1 hfind j hj, ?_⟩
      rcases List.mem_append.1 hj with hj | hj
      · exact Nat.le_of_lt (hlast j hj r (List.mem_singleton_self r))
      · exact (List.mem_singleton.1 hj).le

/-- What takes the place of an unknown is the root of its class. -/
theorem HandlesDistinct.isRoot_rootAt (hd : s.HandlesDistinct) (hi : i < s.params.length) :
    s.IsRoot i (s.rootAt i) := by
  have hself := (hd.mem_members_iff hi).2 (.refl hi)
  unfold rootAt
  cases hr : s.rootOf? (s.members (s.classes.rep i)) with
  | none =>
    have honly : ∀ j, s.InClass i j → j = i := by
      intro j hj
      by_contra hne
      exact rootOf?_ne_none ((hd.mem_members_iff hi).2 hj) hself hne hr
    refine ⟨.refl hi, ?_⟩
    cases hdragged : s.isDraggedAt i with
    | true => exact Or.inl ⟨hdragged, fun j hj _ => (honly j hj).ge⟩
    | false => exact Or.inr fun j hj => by rw [honly j hj]; exact ⟨hdragged, Nat.le_refl i⟩
  | some r =>
    have hchosen := rootOf?_eq_some (pairwise_members s _) hr
    simp only [hd.mem_members_iff hi] at hchosen
    exact ⟨(hd.mem_members_iff hi).1 (mem_of_rootOf? hr), hchosen⟩

/-- A class has one root. -/
theorem IsRoot.eq {r' : Nat} (h : s.IsRoot i r) (h' : s.IsRoot i r') : r = r' := by
  rcases h.chosen with ⟨hdragged, hfirst⟩ | hlast <;>
    rcases h'.chosen with ⟨hdragged', hfirst'⟩ | hlast'
  · exact Nat.le_antisymm (hfirst _ h'.member hdragged') (hfirst' _ h.member hdragged)
  · simp [(hlast' _ h.member).1] at hdragged
  · simp [(hlast _ h'.member).1] at hdragged'
  · exact Nat.le_antisymm (hlast' _ h.member).2 (hlast _ h'.member).2

/-- A dragged unknown has a dragged root. -/
theorem IsRoot.isDraggedAt (h : s.IsRoot i r) (hi : s.isDraggedAt i = true) :
    s.isDraggedAt r = true := by
  rcases h.chosen with ⟨hdragged, _⟩ | hlast
  · exact hdragged
  · rw [(hlast i (.refl h.member.lt.1)).1] at hi
    cases hi

/-! ## The table after substitution -/

/-- An unknown is dragged at its position if its handle is dragged. -/
theorem isDraggedAt_eq {p : Param α} (hp : s.params[i]? = some p) :
    s.isDraggedAt i = s.isDragged p.handle := by
  rw [isDraggedAt, hp]

/-- What becomes of an unknown whose class has a root. -/
theorem substituteParam_some {root : Param α} (hroot : s.params[r]? = some root) (p : Param α) :
    s.substituteParam p i (some r) = if i = r then { p with root := none, state := .live }
      else { p with root := some root.handle, state := .substituted } := by
  have hreplacement : s.replacement? i (some r) = if i = r then none else some root.handle := by
    simp only [replacement?, hroot, Option.map_some, eq_comm]
  unfold substituteParam
  rw [hreplacement]
  by_cases hir : i = r
  · rw [if_pos hir, if_pos hir]
  · rw [if_neg hir, if_neg hir]

/-- An unknown is substituted exactly if another one takes its place. -/
theorem state_substituteParam {p : Param α} (hlive : p.state = .live) (root : Option Nat) :
    (s.substituteParam p i root).state = .substituted ↔
      (s.replacement? i root).isSome = true := by
  unfold substituteParam
  cases root with
  | none => simp [hlive, replacement?]
  | some r => cases s.replacement? i (some r) <;> simp

/-- The unknowns that get another name are those that are substituted. -/
theorem countP_substitute (hlive : ∀ p ∈ s.params, p.state = .live) :
    s.substitute.1 = s.substitute.2.params.countP (·.state == .substituted) := by
  unfold substitute
  split
  · refine (List.countP_eq_zero.2 fun p hp => ?_).symm
    rw [hlive p hp]
    decide
  · simp only [List.length_filterMap_eq_countP, List.countP_map]
    refine List.countP_congr fun ((p, root), i) hmem => ?_
    have hp := (List.of_mem_zip (List.fst_mem_of_mem_zipIdx hmem)).1
    simp [state_substituteParam (hlive p hp)]

/-- The only unknown of a class is untouched. -/
theorem HandlesDistinct.getElem?_params_alone (hd : s.HandlesDistinct)
    (honly : ∀ j, s.InClass i j → j = i) : s.substitute.2.params[i]? = s.params[i]? := by
  cases hp : s.params[i]? with
  | none =>
    rw [List.getElem?_eq_none_iff, length_params_substitute]
    exact List.getElem?_eq_none_iff.1 hp
  | some p =>
    have hmembers : ∀ j ∈ s.members (s.classes.rep i), j = i := fun j hj =>
      honly j ((hd.mem_members_iff (List.getElem?_eq_some_iff.1 hp).1).1 hj)
    rw [getElem?_params_substitute hp, rootOf?_eq_none (s.pairwise_members _) hmembers]
    rfl

/-- Every member of a class of several unknowns is the root or points to it. -/
theorem HandlesDistinct.getElem?_params_larger (hd : s.HandlesDistinct) {p root : Param α}
    (hlive : p.state = .live) (hk : s.InClass i k) (hne : k ≠ i) (hr : s.IsRoot i r)
    (hp : s.params[i]? = some p) (hroot : s.params[r]? = some root) :
    s.substitute.2.params[i]? = some (if i = r then { p with root := none }
      else { p with root := some root.handle, state := .substituted }) := by
  obtain ⟨hi, _⟩ := hk.lt
  have hsome := rootOf?_ne_none (s := s) ((hd.mem_members_iff hi).2 hk)
    ((hd.mem_members_iff hi).2 (.refl hi)) hne
  obtain ⟨r', hr'⟩ := Option.ne_none_iff_exists'.1 hsome
  have hrootAt : s.rootAt i = r' := by rw [rootAt, hr', Option.getD_some]
  obtain rfl := (hd.isRoot_rootAt hi).eq hr
  rw [getElem?_params_substitute hp, hr', ← hrootAt, substituteParam_some hroot, ← hlive]

/-- The root of a class is its only member that is live after substitution. -/
theorem HandlesDistinct.state_eq_live_iff (hd : s.HandlesDistinct)
    (hlive : ∀ p ∈ s.params, p.state = .live) {p' : Param α} (hij : s.InClass i j)
    (hp' : s.substitute.2.params[j]? = some p') : p'.state = .live ↔ j = s.rootAt i := by
  obtain ⟨hi, hj⟩ := hij.lt
  have hp := List.getElem?_eq_getElem hj
  have hplive := hlive _ (List.getElem_mem hj)
  rw [getElem?_params_substitute hp, Option.some.injEq] at hp'
  subst hp'
  rw [rootAt_eq_of_rep hi hj ((hd.inClass_iff hi hj).1 hij)]
  rcases substituteParam_eq hp hplive with ⟨hroot, _, heq⟩ | ⟨hroot, _, _, heq⟩
  · rw [heq]
    exact iff_of_true hplive hroot.symm
  · rw [heq]
    exact iff_of_false nofun (Ne.symm hroot)

/-- A dragged unknown is substituted only by one that is dragged as well. -/
theorem HandlesDistinct.isDragged_root (hd : s.HandlesDistinct)
    (hlive : ∀ p ∈ s.params, p.state = .live) {p' : Param α} (hp' : p' ∈ s.substitute.2.params)
    (hstate : p'.state = .substituted) (hdragged : s.isDragged p'.handle = true) :
    ∃ h, p'.root = some h ∧ s.isDragged h = true := by
  obtain ⟨i, hi⟩ := List.getElem?_of_mem hp'
  have hlt : i < s.params.length :=
    s.length_params_substitute ▸ (List.getElem?_eq_some_iff.1 hi).1
  have hp := List.getElem?_eq_getElem hlt
  have hplive := hlive _ (List.getElem_mem hlt)
  rw [getElem?_params_substitute hp, Option.some.injEq] at hi
  rcases substituteParam_eq hp hplive with ⟨_, _, heq⟩ | ⟨_, r, hr, heq⟩
  · rw [← hi, heq] at hstate
    rw [hplive] at hstate
    cases hstate
  · rw [← hi, heq] at hdragged ⊢
    refine ⟨r.handle, rfl, ?_⟩
    rw [← isDraggedAt_eq hr]
    exact (hd.isRoot_rootAt hlt).isDraggedAt ((isDraggedAt_eq hp).trans hdragged)

/-- Equations are satisfied if they are equalities, and live if not. -/
theorem state_equations_substitute (hd : s.HandlesDistinct)
    (hlive : ∀ q ∈ s.equations, q.state = .live) :
    List.Forall₂ (fun q q' => Equation.Renamed s.newName s.isUnknown q q' ∧
        (q'.state = .satisfied ↔ s.IsEquality q.expr) ∧
        (q'.state = .live ↔ ¬ s.IsEquality q.expr)) s.equations s.substitute.2.equations := by
  have hall := forall₂_equations_substitute hd
  refine forall₂_of_getElem? hall.length_eq fun k q q' hq hq' => ?_
  obtain ⟨q₁, hq₁, hrenamed, hstate⟩ := forall₂_getElem? hall hq
  obtain rfl := Option.some.inj (hq₁.symm.trans hq')
  rw [hstate, hlive q (List.mem_of_getElem? hq), ← isSome_equality?_iff]
  refine ⟨hrenamed, ?_⟩
  cases (s.equality? q.expr).isSome <;> decide

/-! ## The normal form -/

/-- The system `s'` is `s` with the unknowns of every class made one, and `f` is the name that they
have from then on. -/
structure NormalForm (f : ParamHandle → ParamHandle) (s s' : EquationSystem α) : Prop where
  rest : s' = { s with params := s'.params, equations := s'.equations }
  length_params : s'.params.length = s.params.length
  /-- One member of every class is live, its root. -/
  live : ∀ i < s.params.length, ∃ r, s.IsRoot i r ∧ ∀ {j p'}, s.InClass i j →
    s'.params[j]? = some p' → (p'.state = .live ↔ j = r)
  /-- The root of a class of several unknowns points to no other one, and all others point to it. -/
  larger : ∀ {i k r p root}, s.InClass i k → k ≠ i → s.IsRoot i r → s.params[i]? = some p →
    s.params[r]? = some root → s'.params[i]? = some (if i = r then { p with root := none }
      else { p with root := some root.handle, state := .substituted })
  /-- An unknown that is not connected to another one is untouched. -/
  alone : ∀ {i}, (∀ j, s.InClass i j → j = i) → s'.params[i]? = s.params[i]?
  /-- The name of an unknown is that of its root, and all other parameters keep theirs. -/
  name : ∀ {i r p root}, s.IsRoot i r → s.params[i]? = some p → s.params[r]? = some root →
    f p.handle = root.handle
  other : ∀ h, s.isUnknown h = false → f h = h
  /-- Every equation is written in these names. The equalities are satisfied, and no others. -/
  equations : List.Forall₂ (fun q q' => Equation.Renamed f s.isUnknown q q' ∧
      (q'.state = .satisfied ↔ s.IsEquality q.expr) ∧
      (q'.state = .live ↔ ¬ s.IsEquality q.expr)) s.equations s'.equations
  unreferenced : ∀ q ∈ s'.equations, ∀ p ∈ s'.params, q.expr.dependsOn p.handle = true →
    p.state ≠ .substituted
  dragged : ∀ p ∈ s'.params, p.state = .substituted → s.isDragged p.handle = true →
    ∃ h, p.root = some h ∧ s.isDragged h = true

/-- **Substitution makes one unknown of each class.** If all unknowns have different handles, and
all of them and all equations are live, one member of every class that equalities connect stays
live, the first one that is dragged or else the last one, and all others point to it. Unknowns that
are not connected to another one are untouched. Exactly the equalities are satisfied, no equation
refers to a substituted unknown, a dragged unknown is substituted only by a dragged one, and the
result is the number of substituted unknowns. Without equalities, nothing at all changes. -/
theorem substitute_normalForm (hd : s.HandlesDistinct) (hparams : ∀ p ∈ s.params, p.state = .live)
    (hequations : ∀ q ∈ s.equations, q.state = .live) :
    NormalForm s.newName s s.substitute.2 ∧
      s.substitute.1 = s.substitute.2.params.countP (·.state == .substituted) ∧
      ((∀ q ∈ s.equations, ¬ s.IsEquality q.expr) → s.substitute = (0, s)) := by
  have hsub := substitutes_substitute hd hparams
  refine ⟨⟨s.substitute_eq, s.length_params_substitute, ?live, ?larger, hd.getElem?_params_alone,
    ?name, hsub.other, state_equations_substitute hd hequations, ?unreferenced, ?dragged⟩,
    countP_substitute hparams, ?unchanged⟩
  case live =>
    exact fun i hi => ⟨s.rootAt i, hd.isRoot_rootAt hi, hd.state_eq_live_iff hparams⟩
  case larger =>
    intro i k r p root hk hne hr hp hroot
    exact hd.getElem?_params_larger (hparams p (List.mem_of_getElem? hp)) hk hne hr hp hroot
  case name =>
    intro i r p root hr hp hroot
    obtain rfl := (hd.isRoot_rootAt (List.getElem?_eq_some_iff.1 hp).1).eq hr
    have hname := hd.newName_eq hp
    rw [hroot, Option.map_some, Option.some.injEq] at hname
    exact hname.symm
  case unreferenced =>
    intro q hq p hp hdep
    obtain ⟨_, _, hrenamed⟩ := forall₂_mem_of hsub.equations hq
    have hother : ∀ h, s.substitute.2.isUnknown h = false → s.newName h = h := by
      rw [hsub.isUnknown_eq]
      exact hsub.other
    have hplive := (hsub.handlesDistinct hd).of_dependsOn_renamed hsub.live hother hrenamed.expr
      hp hdep
    rw [hplive]
    decide
  case dragged => exact fun p hp => hd.isDragged_root hparams hp
  case unchanged =>
    intro hnone
    have hall : (s.equations.all fun q => (s.equality? q.expr).isNone) = true := by
      rw [List.all_eq_true]
      intro q hq
      have hnot := hnone q hq
      rw [← isSome_equality?_iff] at hnot
      simpa using hnot
    unfold substitute
    rw [if_pos hall]

/-- Three unknowns that are equal in a ring, the last two of which are dragged, two that are said to
be equal twice, and one that is equal to itself and, in no equality, to a parameter of others. -/
def twoClasses : EquationSystem (Exact ℚ) :=
  { empty Settings.rational with
    params := [1, 2, 3, 4, 5, 6].map fun n => { handle := ⟨n⟩, value := .number 0 }
    dragged := [⟨3⟩, ⟨2⟩]
    equations :=
      [.param ⟨1⟩ - .param ⟨2⟩, .param ⟨2⟩ - .param ⟨3⟩, .param ⟨3⟩ - .param ⟨1⟩,
        .param ⟨5⟩ - .param ⟨4⟩, .param ⟨4⟩ - .param ⟨5⟩, .param ⟨6⟩ - .param ⟨6⟩,
        .param ⟨1⟩ + .param ⟨4⟩, .param ⟨6⟩ - .param ⟨7⟩].zipIdx.map fun (e, k) =>
          { handle := ⟨.constraint ⟨1⟩, k⟩, expr := e } }

/-- The root of the ring is the second unknown, the first one in the table that is dragged, and that
of the other class is its last unknown. -/
theorem normalForm_twoClasses : twoClasses.HandlesDistinct ∧
    (∀ p ∈ twoClasses.params, p.state = .live) ∧
    (∀ q ∈ twoClasses.equations, q.state = .live) ∧
    NormalForm twoClasses.newName twoClasses twoClasses.substitute.2 ∧
    twoClasses.IsRoot 0 1 ∧ twoClasses.substitute.1 = 3 ∧
    twoClasses.substitute.2.params.map (·.root) =
      [some ⟨2⟩, none, some ⟨2⟩, some ⟨5⟩, none, none] ∧
    twoClasses.substitute.2.equations.map (·.state) =
      .replicate 6 .satisfied ++ [.live, .live] ∧
    (twoClasses.substitute.2.equations.drop 6).map (·.expr) =
      [.param ⟨2⟩ + .param ⟨5⟩, .param ⟨6⟩ - .param ⟨7⟩] := by
  have hd : twoClasses.HandlesDistinct := by decide +kernel
  have hparams : ∀ p ∈ twoClasses.params, p.state = .live := by decide +kernel
  have hequations : ∀ q ∈ twoClasses.equations, q.state = .live := by decide +kernel
  obtain ⟨hnormal, hcount, _⟩ := substitute_normalForm hd hparams hequations
  have hroot : twoClasses.IsRoot 0 1 := by
    obtain ⟨r, hr, hlive⟩ := hnormal.live 0 (by decide +kernel)
    have hclass : twoClasses.InClass 0 1 :=
      ⟨_, _, rfl, rfl, .rel _ _ ⟨rfl, rfl, _, List.mem_cons_self .., rfl⟩⟩
    have hstate : (twoClasses.substitute.2.params[1]?).map (·.state) = some .live := by
      decide +kernel
    obtain ⟨p', hp', hp'live⟩ := Option.map_eq_some_iff.1 hstate
    rwa [(hlive hclass hp').1 hp'live]
  refine ⟨hd, hparams, hequations, hnormal, hroot, ?_, ?_, ?_, ?_⟩
  · rw [hcount]
    decide +kernel
  all_goals decide +kernel

end SketchSolver.EquationSystem
