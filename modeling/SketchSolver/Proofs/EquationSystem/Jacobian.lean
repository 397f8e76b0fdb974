import SketchSolver.Proofs.Arithmetic.Folding
import SketchSolver.Proofs.Arithmetic.Sparse
import SketchSolver.Proofs.EquationSystem.Independence
import SketchSolver.Proofs.Expr.References

/-!
# The entries of a Jacobian

A linearization has at most one triplet for each equation and unknown, and leaves out those that are
zero, so the entry of its Jacobian is the derivative of the equation with respect to the unknown
(`entry_jacobianAt`). Its rank is that of the matrix of these derivatives (`rankAt_linearize`).
-/

namespace SketchSolver

attribute [local instance] LawfulScalar.addCommMonoid

namespace EquationSystem

section
variable [Scalar α] {s : EquationSystem α} {sel : Selection}

/-- What is linearized, if it is. -/
theorem partials_linearize (hwritten : (s.linearize sel).1 = true) :
    (s.linearize sel).2.linearization.partials =
      (((s.select sel).2.filterMap fun k => s.equations[k]?.map fun q =>
        s.slotForm q.expr).zipIdx.flatMap fun (f, i) =>
          s.partialsOfRow (s.select sel).1 i f) := by
  revert hwritten
  unfold linearize
  obtain ⟨columns, rows⟩ := s.select sel
  simp only
  split
  · exact nofun
  · exact fun _ => rfl

end

/-- A parameter has its derivatives in a column if it is the unknown that the column stands for. -/
theorem column_eq_iff {s : EquationSystem α} (hd : s.HandlesDistinct) {columns : List Nat}
    (hnodup : columns.Nodup) {j c : Nat} {p : Param α} (hc : columns[j]? = some c)
    (hp : s.params[c]? = some p) (h : ParamHandle) :
    (s.position? h).bind (columns.idxOf? ·) = some j ↔ h = p.handle := by
  rw [Option.bind_eq_some_iff]
  constructor
  · rintro ⟨c', hpos, hidx⟩
    obtain ⟨hlt, hget, _⟩ := List.idxOf?_eq_some_iff.1 hidx
    have hc' : columns[j]? = some c' := by rw [List.getElem?_eq_getElem hlt, hget]
    obtain rfl : c = c' := Option.some.inj (hc.symm.trans hc')
    obtain ⟨p', hp', hh⟩ := exists_of_position? hpos
    rw [hp] at hp'
    cases hp'
    exact hh.symm
  · rintro rfl
    obtain ⟨hlt, hget⟩ := List.getElem?_eq_some_iff.1 hc
    refine ⟨c, hd.position?_eq_some_iff.2 ⟨p, hp, rfl⟩, List.idxOf?_eq_some_iff.2
      ⟨hlt, hget, fun k hk heq => ?_⟩⟩
    exact absurd ((List.Nodup.getElem_inj_iff hnodup).1 (heq.trans hget.symm)) (by omega)

section
variable [Scalar α] [LawfulScalar α] {s : EquationSystem α} {sel : Selection} {v : ParamHandle → α}

omit [LawfulScalar α] in
/-- The Jacobian has a column for each unknown of the part. -/
theorem width_jacobianAt (lin : Linearization α) (v : ParamHandle → α) :
    (jacobianAt lin v).toDense.width = lin.columns.length :=
  DenseMatrix.width_ofFn

/-- The entries of a Jacobian, as sums over the derivatives of the linearization. -/
theorem entry_jacobianAt_eq_sum {lin : Linearization α} {i j : Nat}
    (hi : i < lin.rows.length) (hj : j < lin.columns.length) :
    (jacobianAt lin v).toDense.entry i j =
      (lin.partials.map fun t =>
        if t.row = i ∧ t.column = j then t.value.eval (.byHandle v) else 0).sum := by
  refine (DenseMatrix.entry_ofFn hi hj).trans ((SparseMatrix.entry_ofTriplets _ i hj).trans ?_)
  induction lin.partials with
  | nil => rfl
  | cons t ts ih =>
    rw [List.map_cons, List.zip_cons_cons, List.filterMap_cons, List.map_cons, List.sum_cons, ← ih]
    by_cases hzero : (t.value.eval (.byHandle v) == (0 : α)) = true
    · have hvalue : t.value.eval (.byHandle v) = 0 := LawfulScalar.eq_of_beq hzero
      simp only [hzero, if_true]
      rw [hvalue, ite_self, zero_add]
    · simp only [hzero]
      rfl

/-- The derivatives of a row at a position, summed up over the parameters of the row. Those that are
left out are zero. -/
theorem sum_partialsOfRow_eq (columns : List Nat) (row i j : Nat) (f : Expr α) :
    ((s.partialsOfRow columns row f).map fun t =>
        if t.row = i ∧ t.column = j then t.value.eval (.byHandle v) else 0).sum =
      (f.params.map fun h =>
        if row = i ∧ (s.position? h).bind (columns.idxOf? ·) = some j then
          (f.partialWrt h).fold.eval (.byHandle v)
        else 0).sum := by
  unfold partialsOfRow
  induction f.params with
  | nil => rfl
  | cons h hs ih =>
    rw [List.filterMap_cons, List.map_cons, List.sum_cons, ← ih]
    cases hcol : (s.position? h).bind (columns.idxOf? ·) with
    | none => simp
    | some column =>
      cases hconst : (f.partialWrt h).fold.isZeroConst with
      | false => simp [hconst]
      | true =>
        have hzero : (f.partialWrt h).fold.eval (.byHandle v) = 0 := Expr.eval_of_isZeroConst hconst
        simp [hconst, hzero]

/-- In a row, the derivative with respect to the unknown of a column is the one that stands
there. -/
theorem sum_partialsOfRow (hd : s.HandlesDistinct) {columns : List Nat} (hnodup : columns.Nodup)
    {j c : Nat} {p : Param α} (hc : columns[j]? = some c) (hp : s.params[c]? = some p)
    (row i : Nat) (f : Expr α) :
    ((s.partialsOfRow columns row f).map fun t =>
        if t.row = i ∧ t.column = j then t.value.eval (.byHandle v) else 0).sum =
      if row = i then (f.partialWrt p.handle).fold.eval (.byHandle v) else 0 := by
  have hcolumn := column_eq_iff hd hnodup hc hp
  rw [sum_partialsOfRow_eq, List.sum_map_eq_nsmul_single p.handle]
  · simp only [(hcolumn p.handle).2 rfl, and_true]
    by_cases hdep : f.dependsOn p.handle = true
    · rw [List.count_eq_one_of_mem f.nodup_params (Expr.mem_params.2 hdep), one_nsmul]
    · rw [List.count_eq_zero_of_not_mem fun hmem => hdep (Expr.mem_params.1 hmem), zero_nsmul,
        Expr.partialWrt_eq_zero (by simpa using hdep)]
      exact (ite_self _).symm
  · intro h hne _
    exact if_neg fun hcond => hne ((hcolumn h).1 hcond.2)

/-- In the rows of a list that begins at `n`, the derivative of a row with respect to the unknown of
a column is the one that stands there. -/
theorem sum_flatMap_partialsOfRow (hd : s.HandlesDistinct) {columns : List Nat}
    (hnodup : columns.Nodup) {j c : Nat} {p : Param α} (hc : columns[j]? = some c)
    (hp : s.params[c]? = some p) (i : Nat) : ∀ (fs : List (Expr α)) (n : Nat),
      (((fs.zipIdx n).flatMap fun (f, row) => s.partialsOfRow columns row f).map fun t =>
        if t.row = i ∧ t.column = j then t.value.eval (.byHandle v) else 0).sum =
      if n ≤ i then (fs[i - n]?.map fun f =>
        (f.partialWrt p.handle).fold.eval (.byHandle v)).getD 0 else 0
  | [], n => by simp
  | f :: fs, n => by
    rw [List.zipIdx_cons, List.flatMap_cons, List.map_append, List.sum_append,
      sum_flatMap_partialsOfRow hd hnodup hc hp i fs, sum_partialsOfRow hd hnodup hc hp]
    rcases Nat.lt_trichotomy n i with hlt | rfl | hgt
    · have hsub : i - n = i - (n + 1) + 1 := by omega
      rw [if_neg (by omega), zero_add, if_pos (by omega), if_pos (by omega), hsub,
        List.getElem?_cons_succ]
    · simp
    · rw [if_neg (by omega), if_neg (by omega), if_neg (by omega), zero_add]

/-- The entry of the Jacobian of a part of a system is the derivative of the equation of the row
with respect to the unknown of the column. -/
theorem entry_jacobianAt (hd : s.HandlesDistinct) (hwritten : (s.linearize sel).1 = true)
    {i j k c : Nat} {q : Equation α} {p : Param α}
    (hk : (s.select sel).2[i]? = some k) (hq : s.equations[k]? = some q)
    (hc : (s.select sel).1[j]? = some c) (hp : s.params[c]? = some p) :
    (jacobianAt (s.linearize sel).2.linearization v).toDense.entry i j =
      (q.expr.fold.partialWrt p.handle).fold.eval (.byHandle v) := by
  rw [← s.eval_partialWrt_slotForm]
  obtain ⟨hcolumns, hrows, _⟩ := (s.linearize_spec (fun _ _ => False) sel).2 hwritten
  have hi : i < (s.select sel).2.length := (List.getElem?_eq_some_iff.1 hk).1
  have hj : j < (s.select sel).1.length := (List.getElem?_eq_some_iff.1 hc).1
  rw [entry_jacobianAt_eq_sum (by rwa [hrows]) (by rwa [hcolumns]), partials_linearize hwritten]
  -- The rows are the equations of the part, in its order.
  have hexprs : ((s.select sel).2.filterMap fun k => s.equations[k]?.map fun q =>
      s.slotForm q.expr)[i]? = some (s.slotForm q.expr) := by
    have hsome : ∀ k ∈ (s.select sel).2, (s.equations[k]?.map fun q => s.slotForm q.expr) =
        some (((s.equations[k]?.map fun q => s.slotForm q.expr)).getD (.const 0)) := by
      intro k hk
      obtain ⟨q, hq, _⟩ := mem_select_snd.1 hk
      rw [hq]
      rfl
    rw [List.filterMap_congr hsome, List.filterMap_eq_map', List.getElem?_map, hk, Option.map_some,
      hq]
    rfl
  have hall := sum_flatMap_partialsOfRow (v := v) hd (s.nodup_select sel).1 hc hp i
    ((s.select sel).2.filterMap fun k => s.equations[k]?.map fun q => s.slotForm q.expr) 0
  rw [if_pos (Nat.zero_le i), Nat.sub_zero, hexprs] at hall
  exact hall

end

section
variable [Field K] [LinearOrder K] [PartialFunctions K] {s : EquationSystem (Exact K)}
  {sel : Selection} {v : ParamHandle → Exact K}

/-- The matrix is the Jacobian of a part of a system at values given by handle: its entries are the
derivatives of the equations of the part with respect to its unknowns, each of them a number. -/
structure IsPartJacobian (s : EquationSystem (Exact K)) (sel : Selection)
    (v : ParamHandle → Exact K) {m n : Nat} (L : Matrix (Fin m) (Fin n) K) : Prop where
  rows : (s.select sel).2.length = m
  columns : (s.select sel).1.length = n
  entry : ∀ (i : Fin m) (j : Fin n) (k c : Nat) (q : Equation (Exact K)) (p : Param (Exact K)),
    (s.select sel).2[(i : Nat)]? = some k → s.equations[k]? = some q →
    (s.select sel).1[(j : Nat)]? = some c → s.params[c]? = some p →
      (q.expr.fold.partialWrt p.handle).eval (.byHandle v) = .number (L i j)

variable {m n : Nat} {L : Matrix (Fin m) (Fin n) K}

/-- The Jacobian of a linearization is that of the part that has been linearized. -/
theorem IsPartJacobian.linearize (hL : s.IsPartJacobian sel v L) (hd : s.HandlesDistinct)
    (hwritten : (s.linearize sel).1 = true) :
    (jacobianAt (s.linearize sel).2.linearization v).toDense.height = m ∧
      (jacobianAt (s.linearize sel).2.linearization v).toDense.width = n ∧
      ∀ (i : Fin m) (j : Fin n),
        (jacobianAt (s.linearize sel).2.linearization v).toDense.entry i j = .number (L i j) := by
  obtain ⟨hcolumns, hrows, _⟩ := (s.linearize_spec (fun _ _ => False) sel).2 hwritten
  refine ⟨(congrArg List.length hrows).trans hL.rows, ?width, fun i j => ?entry⟩
  case width =>
    rw [width_jacobianAt, hcolumns, hL.columns]
  case entry =>
    obtain ⟨k, hk⟩ : ∃ k, (s.select sel).2[(i : Nat)]? = some k :=
      ⟨_, List.getElem?_eq_getElem (hL.rows.symm ▸ i.2)⟩
    obtain ⟨c, hc⟩ : ∃ c, (s.select sel).1[(j : Nat)]? = some c :=
      ⟨_, List.getElem?_eq_getElem (hL.columns.symm ▸ j.2)⟩
    obtain ⟨q, hq, _⟩ := mem_select_snd.1 (List.mem_of_getElem? hk)
    obtain ⟨p, hp, _⟩ := mem_select_fst.1 (List.mem_of_getElem? hc)
    rw [entry_jacobianAt hd hwritten hk hq hc hp]
    exact Expr.eval_fold (hL.entry i j k c q p hk hq hc hp)

/-- The rank of the Jacobian of a part of a system is that of the matrix of the derivatives of its
equations with respect to its unknowns. -/
theorem rankAt_linearize (hd : s.HandlesDistinct) (hrank : IsExactRank s.settings.rankOf)
    (hwritten : (s.linearize sel).1 = true) (hL : s.IsPartJacobian sel v L) :
    rankAt s.settings (s.linearize sel).2.linearization v = L.rank := by
  obtain ⟨hcolumns, hrows, _⟩ := (s.linearize_spec (fun _ _ => False) sel).2 hwritten
  obtain ⟨hheight, hwidth, hentry⟩ := hL.linearize hd hwritten
  unfold rankAt
  rw [hrows, hcolumns]
  by_cases hempty : ((s.select sel).2.isEmpty || (s.select sel).1.isEmpty) = true
  · rw [if_pos hempty]
    rcases Bool.or_eq_true_iff.1 hempty with hnil | hnil
    · obtain rfl : 0 = m := by rw [← hL.rows, List.isEmpty_iff.1 hnil, List.length_nil]
      exact (Nat.le_zero.1 ((Matrix.rank_le_card_height L).trans_eq (Fintype.card_fin 0))).symm
    · obtain rfl : 0 = n := by rw [← hL.columns, List.isEmpty_iff.1 hnil, List.length_nil]
      exact (Nat.le_zero.1 ((Matrix.rank_le_card_width L).trans_eq (Fintype.card_fin 0))).symm
  · rw [if_neg hempty]
    exact hrank m n L _ hheight hwidth hentry

end

end EquationSystem

end SketchSolver
