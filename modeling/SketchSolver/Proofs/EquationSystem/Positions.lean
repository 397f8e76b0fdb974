import Mathlib.Data.List.Forall2
import Mathlib.Data.List.Nodup
import SketchSolver.EquationSystem.Jacobian
import SketchSolver.Proofs.Expr.Parameters

/-!
# Handles and positions

The table of a system resolves a handle to the last unknown that has it (`param?_eq_getLast?`). If
no two unknowns share a handle (`HandlesDistinct`), a handle and the position of its unknown stand
for each other (`position?_eq_some_iff`). An expression in slot form points to unknowns only, and
has the value that the folded expression has by handles (`eval_slotForm`).
-/

namespace SketchSolver.EquationSystem

variable {s : EquationSystem α} {h : ParamHandle} {i : Nat}

/-- No two unknowns share a handle. -/
def HandlesDistinct (s : EquationSystem α) : Prop :=
  (s.params.map (·.handle)).Nodup

/-- Whether handles are distinct is read off the table. -/
instance (s : EquationSystem α) : Decidable s.HandlesDistinct :=
  inferInstanceAs (Decidable (List.Nodup _))

/-- Tables have the same handles if the unknowns at every position have. -/
theorem map_handle_eq {R : Param α → Param α → Prop} (hR : ∀ p q, R p q → q.handle = p.handle) :
    ∀ {ps qs : List (Param α)}, List.Forall₂ R ps qs → qs.map (·.handle) = ps.map (·.handle)
  | _, _, .nil => rfl
  | _, _, .cons hpq hrest => by
    rw [List.map_cons, List.map_cons, hR _ _ hpq, map_handle_eq hR hrest]

/-! ## Resolving handles -/

/-- The handle of a list of unknowns is resolved to the last one that has it. -/
theorem lastPosition?_spec (h : ParamHandle) : ∀ (ps : List (Param α)) (start : Nat),
    match lastPosition? h start ps with
    | none => ps.filter (·.handle = h) = []
    | some i => start ≤ i ∧ (ps.filter (·.handle = h)).getLast? = ps[i - start]? ∧
        ∃ p, ps[i - start]? = some p ∧ p.handle = h
  | [], start => rfl
  | p :: rest, start => by
    have ih := lastPosition?_spec h rest (start + 1)
    rw [lastPosition?]
    cases hrest : lastPosition? h (start + 1) rest with
    | some i =>
      rw [hrest] at ih
      obtain ⟨hle, hlast, q, hq, hqh⟩ := ih
      have hsub : i - start = (i - (start + 1)) + 1 := by omega
      refine ⟨by omega, ?_, q, by rw [hsub]; exact hq, hqh⟩
      rw [hsub, List.getElem?_cons_succ, ← hlast]
      by_cases hp : p.handle = h
      · rw [List.filter_cons_of_pos (by simpa using hp), List.getLast?_cons, hlast, hq]
        rfl
      · rw [List.filter_cons_of_neg (by simpa using hp)]
    | none =>
      rw [hrest] at ih
      replace ih : rest.filter (·.handle = h) = [] := ih
      by_cases hp : p.handle = h
      · simp only [hp, if_true]
        exact ⟨Nat.le_refl _, by simp [List.filter_cons_of_pos, hp, ih], p, by simp, hp⟩
      · simp only [hp, if_false]
        rw [List.filter_cons_of_neg (by simpa using hp), ih]

/-- Which position a handle is resolved to is a matter of the handles in the table alone. -/
theorem lastPosition?_congr (h : ParamHandle) : ∀ {ps qs : List (Param α)} (start : Nat),
    ps.map (·.handle) = qs.map (·.handle) → lastPosition? h start ps = lastPosition? h start qs
  | [], [], _, _ => rfl
  | p :: ps, q :: qs, start, heq => by
    simp only [List.map_cons, List.cons.injEq] at heq
    rw [lastPosition?, lastPosition?, lastPosition?_congr h (start + 1) heq.2, heq.1]
  | [], _ :: _, _, heq => by cases heq
  | _ :: _, [], _, heq => by cases heq

/-- Handles are resolved by the column of handles alone. -/
theorem position?_congr {t : EquationSystem α}
    (heq : t.params.map (·.handle) = s.params.map (·.handle)) : t.position? = s.position? :=
  funext fun h => lastPosition?_congr h 0 heq

/-- Which parameters are unknowns is a matter of the handles in the table alone. -/
theorem isUnknown_congr {t : EquationSystem α}
    (heq : t.params.map (·.handle) = s.params.map (·.handle)) : t.isUnknown = s.isUnknown := by
  funext h
  rw [isUnknown, isUnknown, position?_congr heq]

/-- Whether handles are distinct is a matter of the column of handles. -/
theorem HandlesDistinct.congr {t : EquationSystem α} (hd : s.HandlesDistinct)
    (heq : t.params.map (·.handle) = s.params.map (·.handle)) : t.HandlesDistinct := by
  unfold HandlesDistinct
  rw [heq]
  exact hd

/-- A resolved handle is the handle of the unknown at its position. -/
theorem exists_of_position? (hi : s.position? h = some i) :
    ∃ p, s.params[i]? = some p ∧ p.handle = h := by
  have hspec := lastPosition?_spec h s.params 0
  rw [show lastPosition? h 0 s.params = some i from hi] at hspec
  exact hspec.2.2

/-- No two parameters stand for one unknown. -/
theorem eq_of_position? {h' : ParamHandle} (hi : s.position? h = some i)
    (hi' : s.position? h' = some i) : h = h' := by
  obtain ⟨p, hp, rfl⟩ := exists_of_position? hi
  obtain ⟨p', hp', rfl⟩ := exists_of_position? hi'
  rw [Option.some.inj (hp.symm.trans hp')]

/-- A resolved position is in the table. -/
theorem position?_lt (hi : s.position? h = some i) : i < s.params.length := by
  obtain ⟨p, hp, _⟩ := exists_of_position? hi
  exact (List.getElem?_eq_some_iff.1 hp).1

/-- A handle is resolved unless no unknown has it. -/
theorem position?_eq_none_iff : s.position? h = none ↔ ∀ p ∈ s.params, p.handle ≠ h := by
  have hspec := lastPosition?_spec h s.params 0
  constructor
  · intro hnone
    rw [show lastPosition? h 0 s.params = none from hnone] at hspec
    simpa [List.filter_eq_nil_iff] using hspec
  · intro hne
    cases hi : s.position? h with
    | none => rfl
    | some i =>
      obtain ⟨p, hp, hph⟩ := exists_of_position? hi
      exact absurd hph (hne p (List.mem_of_getElem? hp))

/-- The unknown of a handle is the last one that has it. -/
theorem param?_eq_getLast? (s : EquationSystem α) (h : ParamHandle) :
    s.param? h = (s.params.filter (·.handle = h)).getLast? := by
  have hspec := lastPosition?_spec h s.params 0
  unfold param? position?
  cases hi : lastPosition? h 0 s.params with
  | none =>
    rw [hi] at hspec
    replace hspec : s.params.filter (·.handle = h) = [] := hspec
    rw [hspec]
    rfl
  | some i =>
    rw [hi] at hspec
    exact hspec.2.1.symm

/-- The unknown of a handle has it. -/
theorem handle_of_param? {p : Param α} (hp : s.param? h = some p) : p.handle = h := by
  rw [param?_eq_getLast?] at hp
  have hmem := List.mem_of_getLast? hp
  simpa using (List.mem_filter.1 hmem).2

/-- A parameter is an unknown of the system if an unknown has its handle. -/
theorem isUnknown_iff : s.isUnknown h = true ↔ ∃ p ∈ s.params, p.handle = h := by
  unfold isUnknown
  cases hi : s.position? h with
  | none =>
    have hne := position?_eq_none_iff.1 hi
    simpa using hne
  | some i =>
    obtain ⟨p, hp, hph⟩ := exists_of_position? hi
    simpa using ⟨p, List.mem_of_getElem? hp, hph⟩

/-- The unknowns are the handles that have one. -/
theorem isUnknown_eq_isSome_param? (s : EquationSystem α) (h : ParamHandle) :
    s.isUnknown h = (s.param? h).isSome := by
  unfold isUnknown param?
  cases hi : s.position? h with
  | none => rfl
  | some i =>
    obtain ⟨p, hp, _⟩ := exists_of_position? hi
    simp [hp]

/-- What has an unknown is an unknown. -/
theorem isUnknown_of_param? {p : Param α} (hp : s.param? h = some p) : s.isUnknown h = true := by
  rw [isUnknown_eq_isSome_param?, hp]
  rfl

/-! ## Distinct handles -/

/-- Two unknowns of one handle stand at one position. -/
theorem HandlesDistinct.position_eq (hd : s.HandlesDistinct) {j : Nat} {p q : Param α}
    (hp : s.params[i]? = some p) (hq : s.params[j]? = some q) (heq : p.handle = q.handle) :
    i = j := by
  refine (List.getElem?_inj ?_ hd).1 ?_
  · rw [List.length_map]
    exact (List.getElem?_eq_some_iff.1 hp).1
  · rw [List.getElem?_map, List.getElem?_map, hp, hq, Option.map_some, Option.map_some, heq]

/-- Two unknowns of one handle are one. -/
theorem HandlesDistinct.param_eq (hd : s.HandlesDistinct) {p q : Param α} (hp : p ∈ s.params)
    (hq : q ∈ s.params) (heq : p.handle = q.handle) : p = q := by
  obtain ⟨i, hi⟩ := List.getElem?_of_mem hp
  obtain ⟨j, hj⟩ := List.getElem?_of_mem hq
  rw [hd.position_eq hi hj heq] at hi
  exact Option.some.inj (hi.symm.trans hj)

/-- A handle is resolved to the one position where it stands. -/
theorem HandlesDistinct.position?_eq_some_iff (hd : s.HandlesDistinct) :
    s.position? h = some i ↔ ∃ p, s.params[i]? = some p ∧ p.handle = h := by
  constructor
  · exact exists_of_position?
  · rintro ⟨p, hp, rfl⟩
    cases hj : s.position? p.handle with
    | none => exact absurd rfl (position?_eq_none_iff.1 hj p (List.mem_of_getElem? hp))
    | some j =>
      obtain ⟨q, hq, hqh⟩ := exists_of_position? hj
      rw [hd.position_eq hp hq hqh.symm]

/-- An unknown is the one that its handle is resolved to. -/
theorem HandlesDistinct.param?_eq (hd : s.HandlesDistinct) {p : Param α} (hp : p ∈ s.params) :
    s.param? p.handle = some p := by
  obtain ⟨i, hi⟩ := List.getElem?_of_mem hp
  have hpos : s.position? p.handle = some i := hd.position?_eq_some_iff.2 ⟨p, hi, rfl⟩
  rw [param?, hpos]
  exact hi

/-! ## Values -/

section
variable [Scalar α]

/-- The value of an unknown is the one in the table. -/
theorem HandlesDistinct.value_eq (hd : s.HandlesDistinct) {p : Param α} (hp : p ∈ s.params) :
    s.lookup.value p.handle = p.value := by
  simp only [lookup, hd.param?_eq hp]

/-- A handle has the value of the unknown that it is resolved to. -/
theorem value_of_position? {p : Param α} (hi : s.position? h = some i)
    (hp : s.params[i]? = some p) : s.lookup.value h = p.value := by
  simp [lookup, param?, hi, hp]

/-- A position holds the value of the handle that is resolved to it. -/
theorem slot_of_position? {x : ParamHandle} (hi : s.position? h = some i) :
    s.lookup.slot i x = s.lookup.value h := by
  obtain ⟨p, hp, _⟩ := exists_of_position? hi
  have hparam : s.param? h = some p := by rw [param?, hi]; exact hp
  simp only [lookup, hparam, hp]

/-- The slot form of an expression has the value that the folded expression has by handles. -/
theorem eval_slotForm (s : EquationSystem α) (e : Expr α) :
    (s.slotForm e).eval s.lookup = e.fold.eval (.byHandle s.lookup.value) :=
  Expr.eval_toSlots (fun _ _ hi => slot_of_position? hi) _

/-- A derivative of the slot form has the value that the one of the folded expression has by
handles. -/
theorem eval_partialWrt_slotForm (s : EquationSystem α) (e : Expr α) (v : ParamHandle → α) :
    ((s.slotForm e).partialWrt h).fold.eval (.byHandle v) =
      (e.fold.partialWrt h).fold.eval (.byHandle v) := by
  rw [slotForm, Expr.partialWrt_toSlots, Expr.fold_toSlots, Expr.eval_toSlots (fun _ _ _ => rfl)]
  rfl

/-- The slot form of an expression has every unknown at its position. -/
theorem slotsIn_slotForm (s : EquationSystem α) (e : Expr α) :
    (s.slotForm e).SlotsIn fun h i => s.position? h = some i :=
  Expr.slotsIn_toSlots s.position? _

/-- Expressions with unknowns at their positions have values, and these are read by handle. -/
theorem values_eq_ok {es : List (Expr α)}
    (hes : ∀ e ∈ es, e.SlotsIn fun h i => s.position? h = some i) :
    s.values es = .ok (es.map (·.eval (.byHandle s.lookup.value))) := by
  have hbelow : es.all (·.slotsBelow s.params.length) = true :=
    List.all_eq_true.2 fun e he => (hes e he).slotsBelow fun _ _ hi => position?_lt hi
  rw [values, if_pos hbelow]
  refine congrArg Except.ok (List.map_congr_left fun e he => ?_)
  exact (hes e he).eval fun _ _ hi => slot_of_position? hi

end

end SketchSolver.EquationSystem
