import SketchSolver.Proofs.Arithmetic.Kernel
import SketchSolver.Proofs.EquationSystem.Jacobian
import SketchSolver.Proofs.EquationSystem.Stopping

/-!
# Free unknowns

In exact arithmetic an unknown is marked as free if and only if it is live and the Jacobian of the
live part has independent rows without its column (`markFree_correct`). If the rows are independent
with the column, this says that the unknown can be moved along with other ones so that, to first
order, all equations go on to hold: some vector that the Jacobian maps to zero has an entry in its
column (`free_markFree`). What is computed is whether the unit vector of the column lies in the span
of the rows; the factorization of the transposed Jacobian tells this
(`HoldsJacobian.mem_freeColumns_iff_kernel`), since it gives the rank of independent rows and their
span.
-/

namespace SketchSolver.EquationSystem

open Matrix

/-- Setting the marks of columns sets those of their unknowns, and changes nothing else. -/
theorem markColumns_eq (js : List Nat) (s : EquationSystem α) :
    js.foldl (fun s j =>
      match s.linearization.columns[j]? with
      | some i => s.updateParam i fun p => { p with free := true }
      | none => s) s =
      { s with params := s.params.mapIdx fun i p => { p with
          free := p.free || js.any fun j => s.linearization.columns[j]? == some i } } := by
  induction js generalizing s with
  | nil =>
    have hsame : (s.params.mapIdx fun i p => { p with
        free := p.free || ([] : List Nat).any fun j => s.linearization.columns[j]? == some i }) =
        s.params :=
      List.ext_getElem? fun i => by simp
    rw [hsame, List.foldl_nil]
  | cons j js ih =>
    rw [List.foldl_cons, ih]
    cases hj : s.linearization.columns[j]? with
    | none => simp [hj]
    | some k =>
      refine congrArg (fun params => { s with params }) (List.ext_getElem? fun i => ?_)
      simp only [updateParam, List.getElem?_mapIdx, List.getElem?_modify, List.any_cons, hj,
        Option.map_eq_map, Option.map_map]
      refine congrArg (Option.map · s.params[i]?) (funext fun p => ?_)
      by_cases hki : k = i
      · simp [hki]
      · simp [hki, beq_false_of_ne hki]

/-- The unknown is that of a marked column. -/
theorem any_column_iff {columns js : List Nat} {n i : Nat} (hcolumns : columns.length = n)
    {free : Fin n → Prop} (hfree : ∀ j : Fin n, (j : Nat) ∈ js ↔ free j) :
    (js.any fun j => columns[j]? == some i) = true ↔
      ∃ j : Fin n, columns[(j : Nat)]? = some i ∧ free j := by
  rw [List.any_eq_true]
  constructor
  · rintro ⟨j, hj, hi⟩
    have hi := beq_iff_eq.1 hi
    have hlt : j < n := hcolumns ▸ (List.getElem?_eq_some_iff.1 hi).1
    exact ⟨⟨j, hlt⟩, hi, (hfree ⟨j, hlt⟩).1 hj⟩
  · rintro ⟨j, hi, hj⟩
    exact ⟨j, (hfree j).2 hj, beq_iff_eq.2 hi⟩

section
variable [Field K] [LinearOrder K] [PartialFunctions K] {s s' : EquationSystem (Exact K)}
  {m n : Nat}

/-- The Jacobian of a part is a matter of what frames keep. -/
theorem IsPartJacobian.frame {moved : ParamState → Nat → Prop} {sel : Selection}
    {v : ParamHandle → Exact K} {L : Matrix (Fin m) (Fin n) K} (hL : s.IsPartJacobian sel v L)
    (h : Frame moved s s') : s'.IsPartJacobian sel v L where
  rows := by rw [select_eq_of_frame h, hL.rows]
  columns := by rw [select_eq_of_frame h, hL.columns]
  entry i j k c q p hk hq hc hp := by
    rw [select_eq_of_frame h] at hk hc
    rw [h.equations] at hq
    obtain ⟨p₀, hp₀, hkept⟩ := h.kept_of hp
    rw [hkept.handle]
    exact hL.entry i j k c q p₀ hk hq hc hp₀

/-- Where no value moves, a part keeps the Jacobian at the values of the system. -/
theorem IsPartJacobian.still {sel : Selection} {L : Matrix (Fin m) (Fin n) K}
    (hL : s.IsPartJacobian sel s.lookup.value L) (h : Frame (fun _ _ => False) s s') :
    s'.IsPartJacobian sel s'.lookup.value L := by
  have hvalue : s'.lookup.value = s.lookup.value :=
    funext fun _ => h.value_eq_of_forall fun _ _ _ => id
  rw [hvalue]
  exact hL.frame h

/-- Moving unknowns makes no part too large. -/
theorem linearize_fst_of_frame {moved : ParamState → Nat → Prop} {sel : Selection}
    (h : Frame moved s s') : (s'.linearize sel).1 = (s.linearize sel).1 := by
  rw [Bool.eq_iff_iff, linearize_fst, linearize_fst, select_eq_of_frame h, h.settings]

/-- A linearization with the given Jacobian has been evaluated. -/
structure HoldsJacobian (s : EquationSystem (Exact K)) (J : Matrix (Fin m) (Fin n) K) : Prop where
  rows : s.linearization.rows.length = m
  columns : s.linearization.columns.length = n
  height : s.linearization.jacobian.toDense.height = m
  width : s.linearization.jacobian.toDense.width = n
  entry : ∀ (i : Fin m) (j : Fin n), s.linearization.jacobian.toDense.entry i j = .number (J i j)

/-- Evaluating the Jacobian of a part that has been linearized gives the one of the part. -/
theorem IsPartJacobian.exists_evalJacobian {sel : Selection} {L : Matrix (Fin m) (Fin n) K}
    (hL : s.IsPartJacobian sel s.lookup.value L) (hd : s.HandlesDistinct)
    (hwritten : (s.linearize sel).1 = true) : ∃ lin,
      (s.linearize sel).2.evalJacobian = .ok { s with linearization := lin } ∧
      lin.columns = (s.select sel).1 ∧
      ({ s with linearization := lin } : EquationSystem (Exact K)).HoldsJacobian L := by
  obtain ⟨hcolumns, hrows, _⟩ := (s.linearize_spec (fun _ _ => False) sel).2 hwritten
  obtain ⟨hheight, hwidth, hentry⟩ := hL.linearize hd hwritten
  let lin : Linearization (Exact K) := { (s.linearize sel).2.linearization with
    jacobian := jacobianAt (s.linearize sel).2.linearization s.lookup.value }
  have hself : ({ (s.linearize sel).2 with linearization := lin } : EquationSystem (Exact K)) =
      { s with linearization := lin } :=
    congrArg (fun t : EquationSystem (Exact K) => { t with linearization := lin })
      (s.linearize_snd sel)
  exact ⟨lin, (s.evalJacobian_linearize sel).trans (congrArg Except.ok hself), hcolumns,
    (congrArg List.length hrows).trans hL.rows, (congrArg List.length hcolumns).trans hL.columns,
    hheight, hwidth, hentry⟩

/-- Marking clears all marks and sets those of the unknowns of free columns of the live part. -/
theorem IsPartJacobian.exists_markFree {L : Matrix (Fin m) (Fin n) K}
    (hL : s.IsPartJacobian .live s.lookup.value L) (hd : s.HandlesDistinct)
    (hwritten : (s.linearize .live).1 = true) : ∃ t : EquationSystem (Exact K),
      t.settings = s.settings ∧ t.HoldsJacobian L ∧
      s.markFree true = .ok { s with
        params := s.params.mapIdx fun i p => { p with
          free := t.freeColumns.any fun j => (s.select .live).1[j]? == some i }
        linearization := t.linearization } := by
  have hclear : Frame (fun _ _ => False) s
      { s with params := s.params.map fun p => { p with free := false } } :=
    ⟨rfl, rfl, rfl, rfl, rfl, List.forall₂_map_right_iff.2 (List.forall₂_same.2 fun _ _ =>
      ⟨rfl, rfl, rfl, rfl, fun _ => rfl⟩)⟩
  unfold markFree
  generalize hcleared : ({ s with params := s.params.map fun p => { p with free := false } } :
    EquationSystem (Exact K)) = cleared at hclear ⊢
  have hwritten' : (cleared.linearize .live).1 = true :=
    (linearize_fst_of_frame hclear).trans hwritten
  obtain ⟨lin, hjac, hcolumns, hholds⟩ :=
    (hL.still hclear).exists_evalJacobian (hclear.handlesDistinct hd) hwritten'
  rw [select_eq_of_frame hclear] at hcolumns
  refine ⟨{ cleared with linearization := lin }, hclear.settings, hholds, ?_⟩
  simp only [Bool.not_true, Bool.false_eq_true, if_false, hwritten', hjac]
  refine congrArg Except.ok ((markColumns_eq _ _).trans ?_)
  subst hcleared
  simp only [hcolumns]
  -- No mark is left of those that had been set before.
  congr 1
  refine List.ext_getElem? fun i => ?_
  rw [List.getElem?_mapIdx, List.getElem?_mapIdx, List.getElem?_map, Option.map_map]
  rfl

variable {J : Matrix (Fin m) (Fin n) K}

/-- The transpose of the evaluated Jacobian has the entries of the transpose. -/
theorem HoldsJacobian.entry_transpose (h : s.HoldsJacobian J) (i : Fin n) (k : Fin m) :
    s.linearization.jacobian.toDense.transpose.entry i k = .number (Jᵀ i k) :=
  (DenseMatrix.entry_transpose (h.width.symm ▸ i.2) (h.height.symm ▸ k.2)).trans (h.entry k i)

variable [IsStrictOrderedRing K] [LawfulRoot K] [TotalRoot K]

/-- The rank that is counted for the transposed Jacobian is that of the Jacobian. -/
theorem HoldsJacobian.rank_factorize (h : s.HoldsJacobian J) :
    (PivotedQR.factorize s.linearization.jacobian.toDense.transpose).rank = J.rank :=
  (PivotedQR.isExactRank_factorize n m Jᵀ _ h.width (DenseMatrix.width_ofFn.trans h.height)
    h.entry_transpose).trans J.rank_transpose

/-- The columns that are found free are those in which the Jacobian maps some vector with an entry
to zero, if its rows are independent. -/
theorem HoldsJacobian.mem_freeColumns_iff_kernel (h : s.HoldsJacobian J)
    (htolerance : s.settings.freeColumnTolerance = .number 0) (hfull : J.rank = m) (j : Fin n) :
    (j : Nat) ∈ s.freeColumns ↔ ∃ u, J *ᵥ u = 0 ∧ u j ≠ 0 := by
  unfold freeColumns
  simp only [h.rows, h.columns]
  by_cases hm : m = 0
  · subst hm
    rw [if_pos rfl]
    refine iff_of_true (List.mem_range.2 j.2) ⟨Pi.single j 1, Subsingleton.elim _ _, ?_⟩
    rw [Pi.single_eq_same]
    exact one_ne_zero
  · rw [if_neg hm]
    have hwidth : s.linearization.jacobian.toDense.transpose.width = m :=
      DenseMatrix.width_ofFn.trans h.height
    obtain ⟨Q, σ, hfactors, hstair⟩ := PivotedQR.exists_staircase h.width hwidth h.entry_transpose
    rw [PivotedQR.rankAbove_zero h.width hwidth h.entry_transpose, J.rank_transpose, hfull]
      at hstair
    have hunit : ((List.range n).map fun i => if i = (j : Nat) then (1 : Exact K) else 0) =
        numbers (List.ofFn (Pi.single j 1)) := by
      refine List.ext_getElem (by simp [numbers]) fun i hi hi' => ?_
      by_cases hij : i = (j : Nat)
      · simp [numbers, hij]
        rfl
      · simp [numbers, hij, Fin.ext_iff]
        rfl
    rw [h.rank_factorize, hfull, if_neg (lt_irrefl m), List.mem_filter, hunit, htolerance,
      decide_eq_true_eq]
    exact (and_iff_right (List.mem_range.2 j.2)).trans (hfactors.zero_lt_iff hstair j)

/-- The columns that are found free are those without which the rows are still independent. -/
theorem HoldsJacobian.mem_freeColumns_iff_rank (h : s.HoldsJacobian J)
    (htolerance : s.settings.freeColumnTolerance = .number 0) (j : Fin n) :
    (j : Nat) ∈ s.freeColumns ↔ (dropColumn J j).rank = m := by
  by_cases hfull : J.rank = m
  · rw [h.mem_freeColumns_iff_kernel htolerance hfull, ← rank_dropColumn_eq_iff, hfull]
  · -- Redundant rows stay redundant with a column less.
    have hless : J.rank < m := lt_of_le_of_ne J.rank_le_height hfull
    refine iff_of_false ?_ (rank_dropColumn_le.trans_lt hless).ne
    unfold freeColumns
    simp only [h.rows, h.rank_factorize, if_neg (Nat.ne_zero_of_lt hless), if_pos hless]
    exact List.not_mem_nil

/-- An unknown is marked as free if it is live and the Jacobian of the live part maps some vector to
zero that has an entry in its column. -/
theorem free_markFree {L : Matrix (Fin m) (Fin n) K} (hd : s.HandlesDistinct)
    (htolerance : s.settings.freeColumnTolerance = .number 0)
    (hwritten : (s.linearize .live).1 = true) (hL : s.IsPartJacobian .live s.lookup.value L)
    (hfull : L.rank = m) (h : s.markFree true = .ok s') {i : Nat} {p : Param (Exact K)}
    (hp : s'.params[i]? = some p) : p.free = true ↔
      ∃ j : Fin n, (s.select .live).1[(j : Nat)]? = some i ∧ ∃ u, L *ᵥ u = 0 ∧ u j ≠ 0 := by
  obtain ⟨t, hsettings, hholds, hmark⟩ := hL.exists_markFree hd hwritten
  obtain rfl := Except.ok.inj (hmark.symm.trans h)
  rw [List.getElem?_mapIdx] at hp
  obtain ⟨p₀, _, rfl⟩ := Option.map_eq_some_iff.1 hp
  exact any_column_iff hL.columns
    (hholds.mem_freeColumns_iff_kernel (hsettings ▸ htolerance) hfull)

/-- Marking finds a live unknown free just if the rows of the Jacobian of the live part stay
independent without its column, and changes no more than the marks and the linearization. -/
theorem markFree_correct {L : Matrix (Fin m) (Fin n) K} (hd : s.HandlesDistinct)
    (htolerance : s.settings.freeColumnTolerance = .number 0)
    (hL : s.IsPartJacobian .live s.lookup.value L) (hceiling : m < s.settings.maxEquations) :
    ∃ (free : Nat → Bool) (lin : Linearization (Exact K)),
      s.markFree true = .ok { s with
        params := s.params.mapIdx fun i p => { p with free := free i }
        linearization := lin } ∧
      ∀ i p, s.params[i]? = some p → (free i = true ↔ p.state = .live ∧
        ∃ j : Fin n, (s.select .live).1[(j : Nat)]? = some i ∧ (dropColumn L j).rank = m) := by
  have hwritten : (s.linearize .live).1 = true := by
    rw [linearize_fst, hL.rows]
    exact hceiling
  obtain ⟨t, hsettings, hholds, hmark⟩ := hL.exists_markFree hd hwritten
  refine ⟨_, _, hmark, fun i p hp => ?_⟩
  rw [any_column_iff hL.columns
    (hholds.mem_freeColumns_iff_rank (hsettings ▸ htolerance))]
  refine (and_iff_right_of_imp ?_).symm
  rintro ⟨j, hj, _⟩
  obtain ⟨p', hp', hlive⟩ := mem_select_fst.1 (List.mem_of_getElem? hj)
  obtain rfl := Option.some.inj (hp.symm.trans hp')
  exact beq_iff_eq.1 hlive

end

/-- The first unknown is to have the value of one that has been found before, and the second one
that of the third one. The fourth one is in no equation. -/
noncomputable def partlyPinned : EquationSystem (Exact ℝ) :=
  { empty { realSettings with freeColumnTolerance := .number 0 } with
    params := [{ handle := ⟨1⟩, value := .number 1 }, { handle := ⟨2⟩, value := .number 0 },
      { handle := ⟨3⟩, value := .number 0 }, { handle := ⟨4⟩, value := .number 0 },
      { handle := ⟨5⟩, value := .number 1, state := .solvedAlone }]
    equations := [{ handle := ⟨.constraint ⟨1⟩, 0⟩, expr := .param ⟨1⟩ - .param ⟨5⟩ },
      { handle := ⟨.constraint ⟨2⟩, 0⟩, expr := .param ⟨2⟩ - .param ⟨3⟩ }] }

/-- The Jacobian of the live part. -/
def partlyPinnedJacobian : Matrix (Fin 2) (Fin 4) ℝ :=
  !![1, 0, 0, 0;
    0, 1, -1, 0]

/-- The matrix is the Jacobian of the system, at its values. -/
theorem isPartJacobian_partlyPinned :
    partlyPinned.IsPartJacobian .live partlyPinned.lookup.value partlyPinnedJacobian where
  rows := rfl
  columns := rfl
  entry i j k c q p hk hq hc hp := by
    have hpartial : ∀ a b y : ParamHandle,
        ((Expr.param a - .param b : Expr (Exact ℝ)).fold.partialWrt y).eval
          (.byHandle partlyPinned.lookup.value) =
            .number ((if a = y then 1 else 0) - if b = y then 1 else 0) :=
      fun _ _ _ => Expr.eval_partialWrt_sub_param
    fin_cases i <;> cases hk <;> cases hq <;> fin_cases j <;> cases hc <;> cases hp <;>
      exact (hpartial _ _ _).trans (by simp [partlyPinnedJacobian])

/-- No row is a multiple of the other. -/
theorem rank_partlyPinnedJacobian : partlyPinnedJacobian.rank = 2 := by
  refine rank_eq_card_iff.2 fun b => ⟨![b 0, b 1, 0, 0], funext fun i => ?_⟩
  fin_cases i <;> simp [partlyPinnedJacobian, mulVec, dotProduct, Fin.sum_univ_four]

/-- Only the column of the pinned unknown cannot be dropped. -/
theorem rank_dropColumn_partlyPinnedJacobian (j : Fin 4) :
    (dropColumn partlyPinnedJacobian j).rank = 2 ↔ j ≠ 0 := by
  have hkernel := rank_dropColumn_eq_iff (J := partlyPinnedJacobian) (j := j)
  rw [rank_partlyPinnedJacobian] at hkernel
  refine hkernel.trans ⟨?_, fun hj => ⟨![0, 1, 1, 1], funext fun i => ?_, ?_⟩⟩
  · rintro ⟨u, hu, hne⟩ rfl
    have hrow := congrFun hu 0
    simp [partlyPinnedJacobian, mulVec, dotProduct, Fin.sum_univ_four] at hrow
    exact hne hrow
  · fin_cases i <;> simp [partlyPinnedJacobian, mulVec, dotProduct, Fin.sum_univ_four]
  · fin_cases j <;> simp at hj ⊢

/-- The unknowns of the second equation are marked, and the one that is in none, but not the pinned
one. -/
theorem markFree_partlyPinned : partlyPinned.HandlesDistinct ∧
    partlyPinned.settings.freeColumnTolerance = .number 0 ∧
    partlyPinned.IsPartJacobian .live partlyPinned.lookup.value partlyPinnedJacobian ∧
    2 < partlyPinned.settings.maxEquations ∧
    ∃ s, partlyPinned.markFree true = .ok s ∧
      s.params.map (·.free) = [false, true, true, true, false] := by
  have hd : partlyPinned.HandlesDistinct := by decide
  have hceiling : 2 < partlyPinned.settings.maxEquations := by decide
  refine ⟨hd, rfl, isPartJacobian_partlyPinned, hceiling, ?_⟩
  obtain ⟨free, lin, hmark, hfree⟩ := markFree_correct hd rfl isPartJacobian_partlyPinned hceiling
  simp only [rank_dropColumn_partlyPinnedJacobian] at hfree
  refine ⟨_, hmark, ?_⟩
  have hplace : ∀ j : Fin 4, (partlyPinned.select .live).1[(j : Nat)]? = some (j : Nat) := by
    intro j
    fin_cases j <;> rfl
  have hlive : ∀ j : Fin 4, free j = true ↔ j ≠ 0 := by
    intro j
    obtain ⟨p, hp, hstate⟩ : ∃ p, partlyPinned.params[(j : Nat)]? = some p ∧ p.state = .live := by
      fin_cases j <;> exact ⟨_, rfl, rfl⟩
    rw [hfree j p hp]
    constructor
    · rintro ⟨_, k, hk, hne⟩
      obtain rfl : k = j := Fin.ext (Option.some.inj ((hplace k).symm.trans hk))
      exact hne
    · exact fun hne => ⟨hstate, j, hplace j, hne⟩
  have hfound : free 4 = false := by
    rw [← Bool.not_eq_true, hfree 4 _ rfl]
    exact fun h => nomatch h.1
  have hpinned : free 0 = false := by
    rw [← Bool.not_eq_true]
    exact fun h => (hlive 0).1 h rfl
  have hrest : free 1 = true ∧ free 2 = true ∧ free 3 = true :=
    ⟨(hlive 1).2 (by decide), (hlive 2).2 (by decide), (hlive 3).2 (by decide)⟩
  change [free 0, free 1, free 2, free 3, free 4] = _
  rw [hpinned, hrest.1, hrest.2.1, hrest.2.2, hfound]

end SketchSolver.EquationSystem
