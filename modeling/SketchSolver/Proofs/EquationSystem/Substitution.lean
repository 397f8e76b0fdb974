import SketchSolver.EquationSystem.Substitution
import SketchSolver.Proofs.EquationSystem.Frame
import SketchSolver.Proofs.Partition

/-!
# What substitution makes of a system

Substitution renames parameters: there is a function on handles, the identity outside of the
unknowns, by which every equation is rewritten (`Substitutes`). It maps an unknown to one that is
still live, so no equation refers to a substituted unknown afterwards, and it maps the two unknowns
of an equality to one. Both hold since the root of an unknown is that of its class, and the unknowns
of an equality are in one class (`rootAt_eq_of_equality?`). No more than that is identified: a
function of handles that the equalities respect does not change under renaming (`eq_newName`).
-/

namespace SketchSolver

/-! ## Association lists -/

/-- A list of keys has no entry for another one. -/
theorem lookup_filterMap_of_not_mem {key : β → ParamHandle} {g : β → Option γ} {l : List β}
    {h : ParamHandle} (hmem : h ∉ l.map key) :
    (l.filterMap fun x => (g x).map fun y => (key x, y)).lookup h = none := by
  rw [List.lookup_eq_none_iff]
  rintro ⟨k, z⟩ hin
  obtain ⟨w, hw, heq⟩ := List.mem_filterMap.1 hin
  obtain ⟨_, _, hpair⟩ := Option.map_eq_some_iff.1 heq
  rw [bne_iff_ne]
  rintro rfl
  exact hmem (List.mem_map.2 ⟨w, hw, (Prod.ext_iff.1 hpair).1⟩)

/-- The entry of a key among those that a list of different keys gives. -/
theorem lookup_filterMap {key : β → ParamHandle} {g : β → Option γ} :
    ∀ {l : List β}, (l.map key).Nodup → ∀ x ∈ l,
      (l.filterMap fun x => (g x).map fun y => (key x, y)).lookup (key x) = g x
  | y :: l, hnodup, x, hmem => by
    rw [List.map_cons, List.nodup_cons] at hnodup
    rcases List.mem_cons.1 hmem with rfl | hmem
    · cases hg : g x with
      | some z => simp [hg]
      | none => simpa [hg] using lookup_filterMap_of_not_mem (g := g) hnodup.1
    · have hne : key x ≠ key y := by
        intro heq
        exact hnodup.1 (List.mem_map.2 ⟨x, hmem, heq⟩)
      have ih := lookup_filterMap (g := g) hnodup.2 x hmem
      cases hg : g y with
      | some z => simpa [hg, List.lookup_cons, beq_eq_false_iff_ne.2 hne] using ih
      | none => simpa [hg] using ih

/-! ## Renamed tables -/

/-- An unknown is live under its own name, or substituted by the one that `f` renames it to. -/
structure Param.Renamed (f : ParamHandle → ParamHandle) (p p' : Param α) : Prop where
  handle : p'.handle = p.handle
  value : p'.value = p.value
  stage : p'.stage = p.stage
  settled : f p.handle = p.handle ∧ p'.state = .live ∨
    p'.state = .substituted ∧ p'.root = some (f p.handle)

/-- An equation is written in the names that `f` gives to the parameters, and is satisfied if it is
an equality of two unknowns that get one name. -/
structure Equation.Renamed (f : ParamHandle → ParamHandle)
    (isUnknown : ParamHandle → Bool) (q q' : Equation α) : Prop where
  handle : q'.handle = q.handle
  stage : q'.stage = q.stage
  expr : q.expr.RenamedBy f q'.expr
  state : q'.state = q.state ∨ q'.state = .satisfied ∧ ∃ a b,
    q.expr = .binary .sub (.param a) (.param b) ∧ isUnknown a = true ∧ isUnknown b = true ∧
      f a = f b

/-- The parameters of `s` are renamed by `f` in `s'`, unknowns to live ones and others not at
all. -/
structure EquationSystem.Substitutes (f : ParamHandle → ParamHandle)
    (s s' : EquationSystem α) : Prop where
  settings : s'.settings = s.settings
  dragged : s'.dragged = s.dragged
  foreign : s'.foreign = s.foreign
  elimination : s'.elimination = s.elimination
  params : List.Forall₂ (Param.Renamed f) s.params s'.params
  equations : List.Forall₂ (Equation.Renamed f s.isUnknown) s.equations s'.equations
  live : ∀ p' ∈ s'.params, ∃ r ∈ s'.params, r.handle = f p'.handle ∧ r.state = .live
  other : ∀ h, s.isUnknown h = false → f h = h

namespace EquationSystem

variable {s : EquationSystem α} {i j r : Nat} {h : ParamHandle}

/-! ## Classes and roots -/

/-- An equality is a difference of two unknowns. -/
theorem equality?_eq_some {e : Expr α} (he : s.equality? e = some (i, j)) :
    ∃ a b, e = .binary .sub (.param a) (.param b) ∧ s.position? a = some i ∧
      s.position? b = some j := by
  unfold equality? at he
  split at he
  · next a b =>
    cases ha : s.position? a with
    | none => simp [ha] at he
    | some i' =>
      cases hb : s.position? b with
      | none => simp [ha, hb] at he
      | some j' =>
        simp only [ha, hb, Option.bind_eq_bind, Option.bind_some, Option.pure_def,
          Option.some.injEq, Prod.mk.injEq] at he
        obtain ⟨rfl, rfl⟩ := he
        exact ⟨a, b, rfl, ha, hb⟩
  · cases he

/-- The unknowns of equalities are in the table. -/
theorem lt_of_mem_equalities {e : Nat × Nat}
    (he : e ∈ s.equations.filterMap fun q => s.equality? q.expr) :
    e.1 < (Partition.discrete s.params.length).size ∧
      e.2 < (Partition.discrete s.params.length).size := by
  have hsize : (Partition.discrete s.params.length).size = s.params.length := List.length_range
  obtain ⟨q, _, heq⟩ := List.mem_filterMap.1 he
  obtain ⟨a, b, _, ha, hb⟩ := equality?_eq_some heq
  rw [hsize]
  exact ⟨position?_lt ha, position?_lt hb⟩

/-- The classes partition the unknowns, and the unknowns of an equality are in one class. -/
theorem classes_spec (s : EquationSystem α) :
    s.classes.WellFormed ∧ s.classes.size = s.params.length ∧
      ∀ q ∈ s.equations, ∀ i j, s.equality? q.expr = some (i, j) →
        s.classes.rep i = s.classes.rep j := by
  have hsize : (Partition.discrete s.params.length).size = s.params.length := List.length_range
  obtain ⟨hwf, hsize', _, hjoined⟩ := Partition.rep_foldl_union (q := s.classes)
    (Partition.wellFormed_discrete s.params.length) (fun _ he => lt_of_mem_equalities he) rfl
  refine ⟨hwf, hsize'.trans hsize, fun q hq i j heq => ?_⟩
  exact hjoined (i, j) (List.mem_filterMap.2 ⟨q, hq, heq⟩)

/-- The members of a class in the order of the table. -/
def members (s : EquationSystem α) (r : Nat) : List Nat :=
  (List.range s.params.length).filter fun i => s.classes.rep i == r

/-- The members of a class are the unknowns with its representative. -/
theorem mem_members : i ∈ s.members r ↔ i < s.params.length ∧ s.classes.rep i = r := by
  simp [members]

/-- The members of a class are listed in the order of the table. -/
theorem pairwise_members (s : EquationSystem α) (r : Nat) : (s.members r).Pairwise (· < ·) :=
  List.pairwise_lt_range.filter _

/-- The root of an unknown is that of the class of its representative. -/
theorem getElem?_roots (hi : i < s.params.length) :
    s.roots[i]? = some (s.rootOf? (s.members (s.classes.rep i))) := by
  obtain ⟨hwf, hsize, _⟩ := s.classes_spec
  have hzip : ((List.range s.params.length).map s.classes.rep).zipIdx =
      (List.range s.params.length).map fun i => (s.classes.rep i, i) := by
    refine List.ext_getElem? fun i => ?_
    by_cases hi : i < s.params.length
    · simp [hi]
    · simp [hi]
  have hmembers : ∀ r, (s.classes.representatives.zipIdx.filterMap fun e =>
      if e.1 = r then some e.2 else none) = s.members r := by
    intro r
    rw [Partition.representatives_eq hwf, hsize, hzip, List.filterMap_map, members,
      ← List.filterMap_eq_filter]
    refine List.filterMap_congr fun i _ => ?_
    simp [Option.guard]
  unfold roots
  simp only [hmembers, List.getElem?_map, Partition.representatives_eq hwf, hsize,
    List.getElem?_range hi, Option.map_some]

/-- Every unknown has a place in the list of roots. -/
theorem length_roots (s : EquationSystem α) : s.roots.length = s.params.length := by
  obtain ⟨hwf, hsize, _⟩ := s.classes_spec
  simp [roots, Partition.representatives_eq hwf, hsize]

/-- The root of a class is one of its members. -/
theorem mem_of_rootOf? {l : List Nat} (hr : s.rootOf? l = some r) : r ∈ l := by
  unfold rootOf? at hr
  split at hr
  · cases hr
  · cases hr
  · split at hr
    · next hfind =>
      cases hr
      exact List.mem_of_find?_eq_some hfind
    · exact List.mem_of_getLast? hr

/-- A class of several unknowns has a root. -/
theorem rootOf?_ne_none {l : List Nat} (hi : i ∈ l) (hj : j ∈ l) (hne : i ≠ j) :
    s.rootOf? l ≠ none := by
  unfold rootOf?
  split
  · cases hi
  · rw [List.mem_singleton] at hi hj
    exact absurd (hi.trans hj.symm) hne
  · split
    · simp
    · intro hlast
      rw [List.getLast?_eq_none_iff] at hlast
      rw [hlast] at hi
      cases hi

/-- A class of one unknown has no root. -/
theorem rootOf?_eq_none {l : List Nat} (hl : l.Pairwise (· < ·)) (hone : ∀ j ∈ l, j = i) :
    s.rootOf? l = none := by
  match l with
  | [] | [_] => rfl
  | j :: k :: _ =>
    have hlt := (List.pairwise_cons.1 hl).1 k (List.mem_cons_self ..)
    rw [hone j (by simp), hone k (by simp)] at hlt
    exact absurd hlt (Nat.lt_irrefl i)

/-- The unknown that takes the place of the one at a position: the root of its class. -/
def rootAt (s : EquationSystem α) (i : Nat) : Nat :=
  (s.rootOf? (s.members (s.classes.rep i))).getD i

/-- A root is in the class of the unknown, and is its own root. -/
theorem rootAt_spec (hi : i < s.params.length) :
    s.rootAt i < s.params.length ∧ s.rootAt (s.rootAt i) = s.rootAt i := by
  unfold rootAt
  cases hr : s.rootOf? (s.members (s.classes.rep i)) with
  | none =>
    rw [Option.getD_none, hr]
    exact ⟨hi, rfl⟩
  | some r =>
    obtain ⟨hlt, hrep⟩ := mem_members.1 (mem_of_rootOf? hr)
    rw [Option.getD_some, hrep, hr]
    exact ⟨hlt, rfl⟩

/-- The unknowns of a class have one root. -/
theorem rootAt_eq_of_rep (hi : i < s.params.length) (hj : j < s.params.length)
    (hrep : s.classes.rep i = s.classes.rep j) : s.rootAt i = s.rootAt j := by
  by_cases hij : i = j
  · rw [hij]
  · have hroot := rootOf?_ne_none (s := s) (mem_members.2 ⟨hi, rfl⟩)
      (mem_members.2 ⟨hj, hrep.symm⟩) hij
    unfold rootAt
    rw [← hrep]
    cases hr : s.rootOf? (s.members (s.classes.rep i)) with
    | none => exact absurd hr hroot
    | some r => rfl

/-- The unknowns of an equality have one root. -/
theorem rootAt_eq_of_equality? {q : Equation α} (hq : q ∈ s.equations)
    (heq : s.equality? q.expr = some (i, j)) : s.rootAt i = s.rootAt j := by
  obtain ⟨_, _, hjoined⟩ := s.classes_spec
  obtain ⟨a, b, _, ha, hb⟩ := equality?_eq_some heq
  exact rootAt_eq_of_rep (position?_lt ha) (position?_lt hb) (hjoined q hq i j heq)

/-- A class has nothing in common but what the equalities say: what is one for the unknowns of every
equality is one for all unknowns of a class. -/
theorem eq_of_rep_classes {v : Nat → β}
    (hv : ∀ q ∈ s.equations, ∀ i j, s.equality? q.expr = some (i, j) → v i = v j)
    (hi : i < s.params.length) (hj : j < s.params.length)
    (hrep : s.classes.rep i = s.classes.rep j) : v i = v j := by
  have hsize : (Partition.discrete s.params.length).size = s.params.length := List.length_range
  have hpairs : ∀ e ∈ s.equations.filterMap fun q => s.equality? q.expr, v e.1 = v e.2 := by
    intro e he
    obtain ⟨q, hq, heq⟩ := List.mem_filterMap.1 he
    exact hv q hq e.1 e.2 heq
  have hclass : ∀ i < s.params.length, ∀ j < s.params.length,
      (Partition.discrete s.params.length).rep i = (Partition.discrete s.params.length).rep j →
        v i = v j := by
    intro i hi j hj heq
    rw [Partition.rep_discrete hi, Partition.rep_discrete hj] at heq
    rw [heq]
  have hjoined := Partition.eq_of_rep_foldl_union (q := s.classes)
    (Partition.wellFormed_discrete s.params.length) (fun _ he => lt_of_mem_equalities he) hpairs
    (by rwa [hsize]) rfl
  rw [hsize] at hjoined
  exact hjoined i hi j hj hrep

/-- What is one for the unknowns of every equality is one for an unknown and its root. -/
theorem eq_rootAt {v : Nat → β}
    (hv : ∀ q ∈ s.equations, ∀ i j, s.equality? q.expr = some (i, j) → v i = v j)
    (hi : i < s.params.length) : v (s.rootAt i) = v i := by
  unfold rootAt
  cases hr : s.rootOf? (s.members (s.classes.rep i)) with
  | none => rfl
  | some r =>
    obtain ⟨hlt, hrep⟩ := mem_members.1 (mem_of_rootOf? hr)
    exact eq_of_rep_classes hv hlt hi hrep

/-- If no equality is of two different unknowns, every unknown is in a class of its own, which has
no root. -/
theorem rootOf?_members_eq_none
    (hself : ∀ q ∈ s.equations, ∀ i j, s.equality? q.expr = some (i, j) → i = j)
    (hi : i < s.params.length) : s.rootOf? (s.members (s.classes.rep i)) = none := by
  refine rootOf?_eq_none (i := i) (s.pairwise_members _) fun j hj => ?_
  obtain ⟨hlt, hrep⟩ := mem_members.1 hj
  exact eq_of_rep_classes (v := id) hself hlt hi hrep

/-! ## Substitution -/

/-- The name that substitution gives to a parameter. -/
def newName (s : EquationSystem α) (h : ParamHandle) : ParamHandle :=
  match s.position? h with
  | some i => ((s.params[s.rootAt i]?).map (·.handle)).getD h
  | none => h

/-- The unknowns of an equality get one name. -/
theorem newName_eq_of_equality? {q : Equation α} {a b : ParamHandle} (hq : q ∈ s.equations)
    (heq : s.equality? q.expr = some (i, j)) (ha : s.position? a = some i)
    (hb : s.position? b = some j) : s.newName a = s.newName b := by
  obtain ⟨hlt, _⟩ := rootAt_spec (position?_lt hb)
  simp only [newName, ha, hb, rootAt_eq_of_equality? hq heq, List.getElem?_eq_getElem hlt,
    Option.map_some, Option.getD_some]

/-- Substitution identifies nothing but what the equalities say: what is one for the two parameters
of every equality is one for a parameter and its new name. -/
theorem eq_newName {β : Type*} {v : ParamHandle → β}
    (hv : ∀ q ∈ s.equations, ∀ a b, q.expr = .binary .sub (.param a) (.param b) →
      s.isUnknown a = true → s.isUnknown b = true → v a = v b) (h : ParamHandle) :
    v (s.newName h) = v h := by
  unfold newName
  cases hi : s.position? h with
  | none => rfl
  | some i =>
    obtain ⟨p, hp, rfl⟩ := exists_of_position? hi
    have hclass : ((s.params[s.rootAt i]?).map fun p => v p.handle) =
        (s.params[i]?).map fun p => v p.handle := by
      refine eq_rootAt (v := fun i => (s.params[i]?).map fun p => v p.handle)
        (fun q hq j k heq => ?_) (position?_lt hi)
      obtain ⟨a, b, hexpr, ha, hb⟩ := equality?_eq_some heq
      obtain ⟨pa, hpa, rfl⟩ := exists_of_position? ha
      obtain ⟨pb, hpb, rfl⟩ := exists_of_position? hb
      rw [hpa, hpb, Option.map_some, Option.map_some]
      exact congrArg some (hv q hq _ _ hexpr (by simp [isUnknown, ha]) (by simp [isUnknown, hb]))
    rw [hp, Option.map_some] at hclass
    obtain ⟨r, hr, heq⟩ := Option.map_eq_some_iff.1 hclass
    simp only [hr, Option.map_some, Option.getD_some]
    exact heq

/-- Without equalities, every parameter keeps its name. -/
theorem newName_eq_id (hnone : ∀ q ∈ s.equations, s.equality? q.expr = none) :
    s.newName = id := by
  funext h
  refine eq_newName (v := id) (fun q hq a b hexpr ha hb => ?_) h
  obtain ⟨i, hi⟩ := Option.isSome_iff_exists.1 ha
  obtain ⟨j, hj⟩ := Option.isSome_iff_exists.1 hb
  have hnot := hnone q hq
  rw [hexpr] at hnot
  simp [equality?, hi, hj] at hnot

/-- What takes the place of an unknown is its root, unless that is itself. -/
theorem replacement?_eq (s : EquationSystem α) (i : Nat) :
    s.replacement? i (s.rootOf? (s.members (s.classes.rep i))) =
      if s.rootAt i = i then none else (s.params[s.rootAt i]?).map (·.handle) := by
  unfold rootAt
  cases s.rootOf? (s.members (s.classes.rep i)) with
  | none => simp [replacement?]
  | some r => simp [replacement?]

/-- The names of a table, each with its unknown and root. -/
theorem getElem?_placed {p : Param α} (hp : s.params[i]? = some p) :
    (s.params.zip s.roots).zipIdx[i]? =
      some ((p, s.rootOf? (s.members (s.classes.rep i))), i) := by
  have hlt := (List.getElem?_eq_some_iff.1 hp).1
  have hzip : (s.params.zip s.roots)[i]? =
      some (p, s.rootOf? (s.members (s.classes.rep i))) :=
    List.getElem?_zip_eq_some.2 ⟨hp, getElem?_roots hlt⟩
  rw [List.getElem?_zipIdx, hzip, Option.map_some, Nat.zero_add]

/-- Putting roots beside the unknowns keeps the handles. -/
theorem handles_placed (s : EquationSystem α) :
    (s.params.zip s.roots).zipIdx.map (·.1.1.handle) = s.params.map (·.handle) := by
  refine List.ext_getElem? fun i => ?_
  rw [List.getElem?_map, List.getElem?_map]
  cases hp : s.params[i]? with
  | some p => rw [getElem?_placed hp, Option.map_some, Option.map_some]
  | none =>
    have hle := List.getElem?_eq_none_iff.1 hp
    rw [List.getElem?_eq_none (by simpa [length_roots] using hle)]
    rfl

/-- The table of new names has them for all parameters that get one. -/
theorem lookup_renames (hd : s.HandlesDistinct) (h : ParamHandle) :
    (((s.params.zip s.roots).zipIdx.filterMap fun ((p, root), i) =>
      (s.replacement? i root).map fun h => (p.handle, h)).lookup h).getD h = s.newName h := by
  unfold newName
  cases hi : s.position? h with
  | none =>
    have hmem : h ∉ (s.params.zip s.roots).zipIdx.map (·.1.1.handle) := by
      rw [handles_placed]
      intro hin
      obtain ⟨p, hp, hph⟩ := List.mem_map.1 hin
      exact position?_eq_none_iff.1 hi p hp hph
    have hnone := lookup_filterMap_of_not_mem (g := fun x => s.replacement? x.2 x.1.2) hmem
    exact congrArg (·.getD h) hnone
  | some i =>
    obtain ⟨p, hp, rfl⟩ := exists_of_position? hi
    have hnodup : ((s.params.zip s.roots).zipIdx.map (·.1.1.handle)).Nodup := by
      rw [handles_placed]
      exact hd
    have hsome := lookup_filterMap (g := fun x => s.replacement? x.2 x.1.2) hnodup _
      (List.mem_of_getElem? (getElem?_placed hp))
    refine (congrArg (·.getD p.handle) hsome).trans ?_
    simp only [replacement?_eq]
    split
    · next hroot => rw [hroot, hp, Option.map_some, Option.getD_some, Option.getD_none]
    · rfl

/-- An unknown that is its own root stays live, and any other is substituted by its root. -/
theorem substituteParam_eq {p : Param α} (hp : s.params[i]? = some p) (hlive : p.state = .live) :
    s.rootAt i = i ∧ (∃ root, s.substituteParam p i (s.rootOf? (s.members (s.classes.rep i))) =
        { p with root := root }) ∨
      s.rootAt i ≠ i ∧ ∃ r, s.params[s.rootAt i]? = some r ∧
        s.substituteParam p i (s.rootOf? (s.members (s.classes.rep i))) =
          { p with root := some r.handle, state := .substituted } := by
  obtain ⟨hlt, _⟩ := rootAt_spec (List.getElem?_eq_some_iff.1 hp).1
  obtain ⟨r, hr⟩ : ∃ r, s.params[s.rootAt i]? = some r := ⟨_, List.getElem?_eq_getElem hlt⟩
  have hrep := s.replacement?_eq i
  unfold substituteParam
  by_cases hroot : s.rootAt i = i
  · refine Or.inl ⟨hroot, ?_⟩
    rw [if_pos hroot] at hrep
    rw [hrep]
    cases s.rootOf? (s.members (s.classes.rep i)) with
    | none => exact ⟨p.root, rfl⟩
    | some _ => exact ⟨none, by rw [← hlive]⟩
  · refine Or.inr ⟨hroot, r, hr, ?_⟩
    rw [if_neg hroot, hr, Option.map_some] at hrep
    rw [hrep]
    unfold rootAt at hroot
    cases hr' : s.rootOf? (s.members (s.classes.rep i)) with
    | none =>
      rw [hr'] at hroot
      exact absurd rfl hroot
    | some _ => rfl

/-- The table after substitution, whether there are equalities or not. -/
theorem getElem?_params_substitute {p : Param α} (hp : s.params[i]? = some p) :
    s.substitute.2.params[i]? =
      some (s.substituteParam p i (s.rootOf? (s.members (s.classes.rep i)))) := by
  unfold substitute
  split
  · next hall =>
    have hnone : ∀ q ∈ s.equations, s.equality? q.expr = none := by simpa using hall
    have hself : ∀ q ∈ s.equations, ∀ i j, s.equality? q.expr = some (i, j) → i = j := by
      intro q hq i j heq
      rw [hnone q hq] at heq
      cases heq
    rw [rootOf?_members_eq_none hself (List.getElem?_eq_some_iff.1 hp).1, hp]
    rfl
  · rw [List.getElem?_map, getElem?_placed hp, Option.map_some]

/-- Substitution changes unknowns and equations, and nothing else of a system. -/
theorem substitute_eq (s : EquationSystem α) : s.substitute.2 =
    { s with params := s.substitute.2.params, equations := s.substitute.2.equations } := by
  unfold substitute
  split <;> rfl

/-- Substitution leaves as many unknowns as there were. -/
theorem length_params_substitute (s : EquationSystem α) :
    s.substitute.2.params.length = s.params.length := by
  unfold substitute
  split
  · rfl
  · simp [length_roots]

/-- Substitution gives no unknown another handle. -/
theorem handles_substitute (s : EquationSystem α) :
    s.substitute.2.params.map (·.handle) = s.params.map (·.handle) := by
  have hhandle : ∀ (p : Param α) (i : Nat) (root : Option Nat),
      (s.substituteParam p i root).handle = p.handle := by
    intro p i root
    unfold substituteParam
    split <;> rfl
  unfold substitute
  split
  · rfl
  · rw [← s.handles_placed, List.map_map]
    exact List.map_congr_left fun e _ => hhandle ..

/-- If every new name is that of an unknown with a property, an expression in new names refers to
no unknown without it. -/
theorem HandlesDistinct.of_dependsOn_renamed (hd : s.HandlesDistinct) {P : Param α → Prop}
    {f : ParamHandle → ParamHandle} {e e' : Expr α} {p : Param α}
    (hnamed : ∀ p ∈ s.params, ∃ r ∈ s.params, r.handle = f p.handle ∧ P r)
    (hother : ∀ h, s.isUnknown h = false → f h = h) (he : e.RenamedBy f e') (hp : p ∈ s.params)
    (hdep : e'.dependsOn p.handle = true) : P p := by
  obtain ⟨x, _, hx⟩ := (he.dependsOn _).1 hdep
  cases hunknown : s.isUnknown x with
  | true =>
    obtain ⟨p', hp', rfl⟩ := isUnknown_iff.1 hunknown
    obtain ⟨r, hr, hrh, hproperty⟩ := hnamed p' hp'
    rwa [hd.param_eq hp hr (hx.symm.trans hrh.symm)]
  | false =>
    rw [hother x hunknown] at hx
    rw [← Bool.not_eq_true, isUnknown_iff] at hunknown
    exact absurd ⟨p, hp, hx.symm⟩ hunknown

/-- The new name of an unknown is the handle of its root. -/
theorem HandlesDistinct.newName_eq (hd : s.HandlesDistinct) {p : Param α}
    (hp : s.params[i]? = some p) :
    (s.params[s.rootAt i]?).map (·.handle) = some (s.newName p.handle) := by
  have hpos : s.position? p.handle = some i := hd.position?_eq_some_iff.2 ⟨p, hp, rfl⟩
  obtain ⟨hlt, _⟩ := rootAt_spec (List.getElem?_eq_some_iff.1 hp).1
  simp only [newName, hpos, List.getElem?_eq_getElem hlt, Option.map_some, Option.getD_some]

/-- An unknown is renamed as substitution says. -/
theorem HandlesDistinct.renamed_substituteParam (hd : s.HandlesDistinct) {p : Param α}
    (hp : s.params[i]? = some p) (hlive : p.state = .live) :
    Param.Renamed s.newName p
      (s.substituteParam p i (s.rootOf? (s.members (s.classes.rep i)))) := by
  have hname := hd.newName_eq hp
  rcases substituteParam_eq hp hlive with ⟨hroot, root, heq⟩ | ⟨_, r, hr, heq⟩
  · rw [hroot, hp] at hname
    rw [heq]
    exact ⟨rfl, rfl, rfl, Or.inl ⟨(Option.some.inj hname).symm, hlive⟩⟩
  · rw [hr] at hname
    rw [heq]
    exact ⟨rfl, rfl, rfl, Or.inr ⟨rfl, hname⟩⟩

/-- No renaming is needed where all unknowns are live. -/
theorem Substitutes.refl (hlive : ∀ p ∈ s.params, p.state = .live) : Substitutes id s s where
  settings := rfl
  dragged := rfl
  foreign := rfl
  elimination := rfl
  params := List.forall₂_same.2 fun p hp => ⟨rfl, rfl, rfl, Or.inl ⟨rfl, hlive p hp⟩⟩
  equations := List.forall₂_same.2 fun _ _ => ⟨rfl, rfl, Or.inr ⟨rfl, rfl⟩, Or.inl rfl⟩
  live p hp := ⟨p, hp, rfl, hlive p hp⟩
  other _ _ := rfl

/-- What substitution makes of an equation, unless there is no equality. -/
def substituteEquation (s : EquationSystem α) (q : Equation α) : Equation α :=
  { q with
    expr := q.expr.rename s.newName
    state := if (s.equality? q.expr).isSome then .satisfied else q.state }

/-- Substitution rewrites all equations if one of them is an equality, and none otherwise. -/
theorem equations_substitute (hd : s.HandlesDistinct) : s.substitute.2.equations =
    if s.equations.all fun q => (s.equality? q.expr).isNone then s.equations
    else s.equations.map s.substituteEquation := by
  unfold substitute
  split
  · rfl
  · have hrename : (fun h => ((((s.params.zip s.roots).zipIdx.filterMap fun ((p, root), i) =>
        (s.replacement? i root).map fun h => (p.handle, h))).lookup h).getD h) = s.newName :=
      funext (lookup_renames hd)
    simp only [hrename]
    rfl

/-- An equation is renamed as substitution says. -/
theorem renamed_substituteEquation {q : Equation α} (hq : q ∈ s.equations) :
    Equation.Renamed s.newName s.isUnknown q (s.substituteEquation q) where
  handle := rfl
  stage := rfl
  expr := Or.inl rfl
  state := by
    unfold substituteEquation
    cases heq : s.equality? q.expr with
    | none => exact Or.inl rfl
    | some e =>
      obtain ⟨a, b, hexpr, ha, hb⟩ := equality?_eq_some heq
      exact Or.inr ⟨rfl, a, b, hexpr, by simp [isUnknown, ha], by simp [isUnknown, hb],
        newName_eq_of_equality? hq heq ha hb⟩

/-- Every equation is renamed as substitution says, and it is satisfied if it is an equality. -/
theorem forall₂_equations_substitute (hd : s.HandlesDistinct) :
    List.Forall₂ (fun q q' => Equation.Renamed s.newName s.isUnknown q q' ∧
        q'.state = if (s.equality? q.expr).isSome then .satisfied else q.state)
      s.equations s.substitute.2.equations := by
  rw [equations_substitute hd]
  split
  · next hall =>
    have hnone : ∀ q ∈ s.equations, s.equality? q.expr = none := by simpa using hall
    rw [newName_eq_id hnone, List.forall₂_same]
    intro q hq
    refine ⟨⟨rfl, rfl, Or.inr ⟨rfl, rfl⟩, Or.inl rfl⟩, ?_⟩
    rw [hnone q hq]
    rfl
  · rw [List.forall₂_map_right_iff, List.forall₂_same]
    exact fun q hq => ⟨renamed_substituteEquation hq, rfl⟩

namespace Substitutes

variable {f : ParamHandle → ParamHandle} {s' : EquationSystem α}

/-- The unknowns have the handles that they had. -/
theorem handles_eq (h : Substitutes f s s') :
    s'.params.map (·.handle) = s.params.map (·.handle) :=
  map_handle_eq (fun _ _ hk => hk.handle) h.params

/-- Handles that were distinct still are. -/
theorem handlesDistinct (h : Substitutes f s s') (hd : s.HandlesDistinct) :
    s'.HandlesDistinct :=
  hd.congr h.handles_eq

/-- The same handles are unknowns. -/
theorem isUnknown_eq (h : Substitutes f s s') : s'.isUnknown = s.isUnknown :=
  isUnknown_congr h.handles_eq

end Substitutes

/-- Substitution gives new names to the parameters of a system of live unknowns. -/
theorem substitutes_substitute (hd : s.HandlesDistinct)
    (hlive : ∀ p ∈ s.params, p.state = .live) : Substitutes s.newName s s.substitute.2 where
  settings := by rw [substitute_eq]
  dragged := by rw [substitute_eq]
  foreign := by rw [substitute_eq]
  elimination := by rw [substitute_eq]
  params := by
    refine forall₂_of_getElem? s.length_params_substitute.symm fun i p p' hp hp' => ?_
    rw [getElem?_params_substitute hp, Option.some.injEq] at hp'
    subst hp'
    exact hd.renamed_substituteParam hp (hlive p (List.mem_of_getElem? hp))
  equations := (forall₂_equations_substitute hd).imp fun _ _ h => h.1
  live := by
    intro p' hp'
    obtain ⟨i, hi⟩ := List.getElem?_of_mem hp'
    have hlen : i < s.params.length :=
      s.length_params_substitute ▸ (List.getElem?_eq_some_iff.1 hi).1
    obtain ⟨p, hp⟩ : ∃ p, s.params[i]? = some p := ⟨_, List.getElem?_eq_getElem hlen⟩
    obtain ⟨hlt, hroot⟩ := rootAt_spec hlen
    obtain ⟨r, hr⟩ : ∃ r, s.params[s.rootAt i]? = some r := ⟨_, List.getElem?_eq_getElem hlt⟩
    have hrlive := hlive r (List.mem_of_getElem? hr)
    obtain ⟨_, root, hsame⟩ := (substituteParam_eq hr hrlive).resolve_right fun h => h.1 hroot
    rw [getElem?_params_substitute hp, Option.some.injEq] at hi
    subst hi
    have hrenamed := hd.renamed_substituteParam hp (hlive p (List.mem_of_getElem? hp))
    have hname := hd.newName_eq hp
    rw [hr, Option.map_some, Option.some.injEq] at hname
    refine ⟨{ r with root := root }, List.mem_of_getElem? (i := s.rootAt i) ?_, ?_, hrlive⟩
    · rw [getElem?_params_substitute hr]
      exact congrArg some hsame
    · exact hname.trans (congrArg s.newName hrenamed.handle.symm)
  other := by
    intro h hnot
    unfold newName
    cases hi : s.position? h with
    | none => rfl
    | some i => simp [isUnknown, hi] at hnot

end EquationSystem
end SketchSolver
