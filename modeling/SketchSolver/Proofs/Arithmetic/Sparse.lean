import Mathlib.Algebra.BigOperators.Fin
import Mathlib.Algebra.BigOperators.Ring.List
import SketchSolver.Matrix.Sparse
import SketchSolver.Proofs.Arithmetic.Laws
import SketchSolver.Proofs.Arithmetic.Rank

/-!
# Sparse matrices

In exact arithmetic, where the order of a sum is of no account, the entry of a sparse matrix is the
sum of what is stored for its position (`SparseMatrix.entry_eq_sum`), and a matrix made of triplets
has the sum of the triplets of a position as its entry there (`SparseMatrix.entry_ofTriplets`).

The product with the transpose looks positions up, which finds the entry only where no position is
stored twice. A matrix made of triplets stores the positions of each column in ascending order
(`SparseMatrix.storesColumns_ofTriplets`), so the entries of that product are the products of the
rows (`SparseMatrix.entry_timesTranspose`).
-/

namespace SketchSolver

open Exact (IsNumber)

/-- Addition without rounding is that of a commutative monoid. -/
@[reducible] def LawfulScalar.addCommMonoid [Scalar α] [LawfulScalar α] : AddCommMonoid α :=
  { (Scalar.toAdd : Add α), (Scalar.toZero : Zero α) with
    add_assoc := LawfulScalar.add_assoc
    zero_add := LawfulScalar.zero_add
    add_zero := LawfulScalar.add_zero
    add_comm := LawfulScalar.add_comm
    nsmul := nsmulRec }

attribute [local instance] LawfulScalar.addCommMonoid

namespace SparseMatrix

/-! ## Sums -/

section
variable [Scalar α] [LawfulScalar α]

/-- The entry at a position of a line is the sum of what is stored there. -/
theorem lineEntry_eq_sum (line : List (Nat × α)) (i : Nat) :
    lineEntry line i = (line.map fun e => if e.1 = i then e.2 else 0).sum := by
  have hfold : ∀ (line : List (Nat × α)) (a : α),
      line.foldl (fun s e => if e.1 == i then s + e.2 else s) a =
        a + (line.map fun e => if e.1 = i then e.2 else 0).sum := by
    intro line
    induction line with
    | nil => exact fun a => (add_zero a).symm
    | cons e line ih =>
      intro a
      rw [List.foldl_cons, ih, List.map_cons, List.sum_cons]
      by_cases he : e.1 = i
      · simp only [he, beq_self_eq_true, if_true]
        exact add_assoc ..
      · simp only [beq_iff_eq, he, if_false]
        rw [zero_add]
  exact (hfold line 0).trans (zero_add _)

/-- Adding a value to a line adds it to the entry at its position. -/
theorem lineEntry_addAt (p : Nat) (x : α) (line : List (Nat × α)) (i : Nat) :
    lineEntry (addAt p x line) i = lineEntry line i + if p = i then x else 0 := by
  simp only [lineEntry_eq_sum]
  induction line with
  | nil => simp [addAt, add_comm]
  | cons e line ih =>
    obtain ⟨p', y⟩ := e
    rw [addAt]
    split
    · rw [List.map_cons, List.sum_cons, add_comm]
    · split
      · next heq =>
        subst heq
        simp only [List.map_cons, List.sum_cons]
        split
        · exact add_right_comm ..
        · rw [add_zero]
      · rw [List.map_cons, List.sum_cons, ih, List.map_cons, List.sum_cons, add_assoc]

/-- A matrix made of triplets has the sum of those at a position as its entry. -/
theorem entry_ofTriplets {height width : Nat} (ts : List (Triplet α)) (i : Nat) {j : Nat}
    (hj : j < width) : (ofTriplets height width ts).entry i j =
      (ts.map fun t => if t.row = i ∧ t.column = j then t.value else 0).sum := by
  have hfold : ∀ (ts : List (Triplet α)) (line : List (Nat × α)),
      lineEntry ((ts.filter (·.column == j)).foldl (fun line t => addAt t.row t.value line) line)
          i =
        lineEntry line i +
          (ts.map fun t => if t.row = i ∧ t.column = j then t.value else 0).sum := by
    intro ts
    induction ts with
    | nil => exact fun line => (add_zero _).symm
    | cons t ts ih =>
      intro line
      rw [List.map_cons, List.sum_cons]
      by_cases ht : t.column = j
      · rw [List.filter_cons_of_pos (by simpa using ht), List.foldl_cons, ih, lineEntry_addAt,
          add_assoc]
        simp only [ht, and_true]
      · rw [List.filter_cons_of_neg (by simpa using ht), ih, if_neg fun h => ht h.2, zero_add]
  have hline := hfold ts []
  rw [show lineEntry ([] : List (Nat × α)) i = 0 from rfl, zero_add] at hline
  simp only [entry, ofTriplets, List.getD_eq_getElem?_getD, List.getElem?_map,
    List.getElem?_range hj, Option.map_some, Option.getD_some]
  exact hline

/-- The entry of a matrix is the sum of what is stored for its position. -/
theorem entry_eq_sum (A : SparseMatrix α) (i j : Nat) : A.entry i j =
    (A.triplets.map fun t => if t.row = i ∧ t.column = j then t.value else 0).sum := by
  have hlines : ∀ (p k : Nat) (lines : List (List (Nat × α))) (n : Nat),
      ((lines.zipIdx n).flatMap fun e =>
        e.1.map fun d => if d.1 = p ∧ e.2 = k then d.2 else 0).sum =
        if n ≤ k then lineEntry (lines.getD (k - n) []) p else 0 := by
    intro p k lines
    induction lines with
    | nil => exact fun n => (ite_self _).symm
    | cons line lines ih =>
      intro n
      rw [List.zipIdx_cons, List.flatMap_cons, List.sum_append, ih]
      have hother : n ≠ k → (line.map fun d => if d.1 = p ∧ n = k then d.2 else 0).sum = 0 :=
        fun hne => List.sum_eq_zero (List.forall_mem_map.2 fun _ _ => if_neg fun h => hne h.2)
      rcases Nat.lt_trichotomy n k with hlt | rfl | hgt
      · have hsub : k - n = k - (n + 1) + 1 := by omega
        rw [if_pos (by omega), if_pos hlt.le, hsub, List.getD_cons_succ,
          hother hlt.ne, zero_add]
      · rw [if_neg (by omega), if_pos le_rfl, Nat.sub_self, List.getD_cons_zero, add_zero,
          lineEntry_eq_sum]
        simp only [and_true]
      · rw [if_neg (by omega), if_neg (by omega), hother hgt.ne', zero_add]
  rw [entry, triplets, List.map_flatMap]
  simp only [List.map_map, Function.comp_def]
  cases A.storage with
  | byColumns => exact ((hlines i j A.lines 0).trans (if_pos (Nat.zero_le j))).symm
  | byRows =>
    simp only [and_comm (b := _ = j)]
    exact ((hlines j i A.lines 0).trans (if_pos (Nat.zero_le i))).symm

end

/-! ## Positions -/

section
variable {α : Type u}

/-- The positions of a line ascend. -/
def Ascending (line : List (Nat × α)) : Prop :=
  line.Pairwise fun e e' => e.1 < e'.1

/-- Every column is stored, with its positions ascending. -/
structure StoresColumns (A : SparseMatrix α) : Prop where
  storage : A.storage = .byColumns
  length : A.lines.length = A.width
  ascending : ∀ line ∈ A.lines, Ascending line

variable [Add α]

/-- Adding an entry stores no position but its own. -/
theorem of_mem_addAt {p : Nat} {x : α} {line : List (Nat × α)} {e : Nat × α}
    (he : e ∈ addAt p x line) : e.1 = p ∨ ∃ e' ∈ line, e'.1 = e.1 := by
  induction line with
  | nil =>
    obtain rfl := List.mem_singleton.1 he
    exact Or.inl rfl
  | cons d line ih =>
    obtain ⟨q, y⟩ := d
    rw [addAt] at he
    split at he
    · rcases List.mem_cons.1 he with rfl | he
      · exact Or.inl rfl
      · exact Or.inr ⟨e, he, rfl⟩
    · split at he
      · next heq =>
        rcases List.mem_cons.1 he with rfl | he
        · exact Or.inl heq.symm
        · exact Or.inr ⟨e, List.mem_cons_of_mem _ he, rfl⟩
      · rcases List.mem_cons.1 he with rfl | he
        · exact Or.inr ⟨_, List.mem_cons_self .., rfl⟩
        · exact (ih he).imp id fun ⟨e', hmem, heq⟩ => ⟨e', List.mem_cons_of_mem _ hmem, heq⟩

/-- Positions ascend after an entry is added. -/
theorem Ascending.addAt {line : List (Nat × α)} (h : Ascending line) (p : Nat) (x : α) :
    Ascending (addAt p x line) := by
  induction line with
  | nil => exact List.pairwise_singleton _ _
  | cons d line ih =>
    obtain ⟨q, y⟩ := d
    obtain ⟨hq, hline⟩ := List.pairwise_cons.1 h
    rw [SparseMatrix.addAt]
    split
    · next hlt =>
      refine List.pairwise_cons.2 ⟨fun e he => ?_, h⟩
      rcases List.mem_cons.1 he with rfl | he
      · exact hlt
      · exact hlt.trans (hq e he)
    · next hge =>
      split
      · next heq => exact List.pairwise_cons.2 ⟨fun e he => hq e he, hline⟩
      · next hne =>
        refine List.pairwise_cons.2 ⟨fun e he => ?_, ih hline⟩
        rcases of_mem_addAt he with heq | ⟨e', he', heq⟩
        · simp only at hge hne ⊢
          omega
        · exact heq ▸ hq e' he'

/-- The matrix made of triplets stores its columns, in each of which positions ascend. -/
theorem storesColumns_ofTriplets (height width : Nat) (ts : List (Triplet α)) :
    (ofTriplets height width ts).StoresColumns where
  storage := rfl
  length := by simp [ofTriplets]
  ascending := by
    have hfold : ∀ (ts : List (Triplet α)) {line : List (Nat × α)}, Ascending line →
        Ascending (ts.foldl (fun line t => SparseMatrix.addAt t.row t.value line) line) := by
      intro ts
      induction ts with
      | nil => exact id
      | cons t ts ih => exact fun h => ih (h.addAt t.row t.value)
    refine List.forall_mem_map.2 fun j _ => hfold _ List.Pairwise.nil

/-- A matrix made of triplets stores nothing in other rows than theirs. -/
theorem exists_row_of_mem_ofTriplets {height width : Nat} {ts : List (Triplet α)}
    {line : List (Nat × α)} (hline : line ∈ (ofTriplets height width ts).lines) {e : Nat × α}
    (he : e ∈ line) : ∃ t ∈ ts, t.row = e.1 := by
  have hfold : ∀ (ts : List (Triplet α)) (line : List (Nat × α)),
      e ∈ ts.foldl (fun line t => addAt t.row t.value line) line →
        (∃ e' ∈ line, e'.1 = e.1) ∨ ∃ t ∈ ts, t.row = e.1 := by
    intro ts
    induction ts with
    | nil => exact fun line he => Or.inl ⟨e, he, rfl⟩
    | cons t ts ih =>
      intro line he
      rcases ih _ he with ⟨e', he', heq⟩ | ⟨t', ht', heq⟩
      · rcases of_mem_addAt he' with hrow | ⟨e'', he'', heq'⟩
        · exact Or.inr ⟨t, List.mem_cons_self .., hrow.symm.trans heq⟩
        · exact Or.inl ⟨e'', he'', heq'.trans heq⟩
      · exact Or.inr ⟨t', List.mem_cons_of_mem _ ht', heq⟩
  obtain ⟨j, _, rfl⟩ := List.mem_map.1 hline
  rcases hfold _ _ he with ⟨e', he', _⟩ | ⟨t, ht, heq⟩
  · cases he'
  · exact ⟨t, (List.mem_filter.1 ht).1, heq⟩

end

section
variable [Scalar α] [LawfulScalar α]

/-- An entry adds its value at its own position. -/
theorem lineEntry_cons (e : Nat × α) (line : List (Nat × α)) (i : Nat) :
    lineEntry (e :: line) i = (if e.1 = i then e.2 else 0) + lineEntry line i := by
  rw [lineEntry_eq_sum, lineEntry_eq_sum, List.map_cons, List.sum_cons]

/-- Looking a position up finds the entry, if it is stored once. -/
theorem Ascending.lineEntry_eq {line : List (Nat × α)} (h : Ascending line) (i : Nat) :
    lineEntry line i = (line.lookup i).getD 0 := by
  induction line with
  | nil => rfl
  | cons e line ih =>
    obtain ⟨he, hline⟩ := List.pairwise_cons.1 h
    rw [lineEntry_cons, List.lookup_cons]
    by_cases hi : e.1 = i
    · have hnone : line.lookup i = none :=
        List.lookup_eq_none_iff.2 fun d hd => by simpa using ((hi ▸ he d hd).ne)
      rw [ih hline, hnone, if_pos hi, hi, beq_self_eq_true]
      exact add_zero _
    · rw [ih hline, if_neg hi, zero_add, beq_eq_false_iff_ne.2 (Ne.symm hi)]

/-- The row of a matrix whose columns are stored. -/
def storedRow (lines : List (List (Nat × α))) (i n : Nat) : List (Nat × α) :=
  (lines.zipIdx n).filterMap fun e => (e.1.lookup i).map fun v => (e.2, v)

omit [Scalar α] [LawfulScalar α] in
/-- The row holds at a column what this column holds at the position of the row. -/
theorem lookup_storedRow (i k : Nat) : ∀ (lines : List (List (Nat × α))) (n : Nat),
    (storedRow lines i n).lookup k =
      if n ≤ k then (lines[k - n]?).bind (·.lookup i) else none
  | [], n => by simp [storedRow]
  | column :: lines, n => by
    have hrest := lookup_storedRow i k lines (n + 1)
    have hcons : (storedRow (column :: lines) i n).lookup k =
        if k = n then column.lookup i else (storedRow lines i (n + 1)).lookup k := by
      rw [storedRow, List.zipIdx_cons, List.filterMap_cons]
      cases hlookup : column.lookup i with
      | none =>
        simp only [Option.map_none]
        split
        · next hk => exact hrest.trans (if_neg (by omega))
        · rfl
      | some v =>
        simp only [Option.map_some, List.lookup_cons]
        by_cases hk : k = n
        · rw [if_pos hk, beq_iff_eq.2 hk]
        · rw [if_neg hk, beq_eq_false_iff_ne.2 hk]
          rfl
    rw [hcons, hrest]
    rcases Nat.lt_trichotomy n k with hlt | rfl | hgt
    · have hsub : k - n = k - (n + 1) + 1 := by omega
      rw [if_neg (by omega), if_pos (by omega), if_pos hlt.le, hsub, List.getElem?_cons_succ]
    · simp
    · rw [if_neg (by omega), if_neg (by omega), if_neg (by omega)]

omit [Scalar α] [LawfulScalar α] in
/-- The columns of a row ascend, since they are visited in order. -/
theorem ascending_storedRow (lines : List (List (Nat × α))) (i n : Nat) :
    Ascending (storedRow lines i n) := by
  have hpositions : (lines.zipIdx n).Pairwise fun e e' => e.2 < e'.2 := by
    rw [← List.pairwise_map, List.zipIdx_map_snd]
    exact List.pairwise_lt_range'
  refine List.pairwise_filterMap.2 (hpositions.imp fun {e e'} hlt d hd d' hd' => ?_)
  obtain ⟨_, _, rfl⟩ := Option.map_eq_some_iff.1 hd
  obtain ⟨_, _, rfl⟩ := Option.map_eq_some_iff.1 hd'
  exact hlt

omit [Scalar α] [LawfulScalar α] in
/-- A line of a matrix stored by rows is the row of the columns. -/
theorem StoresColumns.getD_storedByRows {A : SparseMatrix α} (h : A.StoresColumns) {i : Nat}
    (hi : i < A.height) : A.storedByRows.lines.getD i [] = storedRow A.lines i 0 := by
  unfold storedByRows
  rw [h.storage]
  simp only [List.getD_eq_getElem?_getD, List.getElem?_map, List.getElem?_range hi]
  rfl

/-- The row of a matrix whose columns are stored has its entries. -/
theorem StoresColumns.lineEntry_storedRow {A : SparseMatrix α} (h : A.StoresColumns) (i j : Nat) :
    lineEntry (storedRow A.lines i 0) j = A.entry i j := by
  rw [(ascending_storedRow ..).lineEntry_eq, lookup_storedRow, if_pos (Nat.zero_le _),
    Nat.sub_zero, entry, h.storage]
  cases hj : A.lines[j]? with
  | none =>
    simp only [List.getD_eq_getElem?_getD, hj, Option.getD_none]
    rfl
  | some column =>
    simp only [List.getD_eq_getElem?_getD, hj, Option.getD_some, Option.bind_some]
    exact ((h.ascending column (List.mem_of_getElem? hj)).lineEntry_eq i).symm

end

/-! ## Numbers -/

section
variable [Field K] [LinearOrder K] [PartialFunctions K]

/-- All stored entries are numbers. -/
def IsNumeric (A : SparseMatrix (Exact K)) : Prop :=
  ∀ line ∈ A.lines, ∀ e ∈ line, IsNumber e.2

variable {A : SparseMatrix (Exact K)} {height width : Nat}

omit [Field K] [LinearOrder K] [PartialFunctions K] in
/-- A matrix consists of numbers if its triplets do. -/
theorem isNumeric_iff : A.IsNumeric ↔ ∀ t ∈ A.triplets, IsNumber t.value := by
  simp only [IsNumeric, triplets, List.mem_flatMap, List.mem_map, Prod.exists]
  constructor
  · rintro hA _ ⟨line, k, hline, p, v, he, rfl⟩
    have hv : IsNumber v := hA line (List.fst_mem_of_mem_zipIdx hline) (p, v) he
    cases A.storage <;> exact hv
  · intro hA line hline e he
    obtain ⟨k, hk⟩ := List.getElem?_of_mem hline
    have hv := hA _ ⟨line, k, List.mem_zipIdx_iff_getElem?.2 hk, e.1, e.2, he, rfl⟩
    cases hstorage : A.storage <;> simpa only [hstorage] using hv

/-- A line with a value added is a line of numbers if the value is one and all others are. -/
theorem isNumber_addAt {p : Nat} {v : Exact K} {line : List (Nat × Exact K)} :
    (∀ e ∈ addAt p v line, IsNumber e.2) ↔ IsNumber v ∧ ∀ e ∈ line, IsNumber e.2 := by
  induction line with
  | nil => simp [addAt]
  | cons e line ih =>
    obtain ⟨q, x⟩ := e
    rw [addAt]
    split
    · rw [List.forall_mem_cons]
    · split
      · rw [List.forall_mem_cons, List.forall_mem_cons, Exact.isNumber_add]
        tauto
      · rw [List.forall_mem_cons, List.forall_mem_cons, ih]
        tauto

/-- A matrix of triplets stores numbers exactly if all triplets of its columns have them. -/
theorem isNumeric_ofTriplets {ts : List (Triplet (Exact K))} :
    (ofTriplets height width ts).IsNumeric ↔ ∀ t ∈ ts, t.column < width → IsNumber t.value := by
  have hfold : ∀ (ts : List (Triplet (Exact K))) (line : List (Nat × Exact K)),
      (∀ e ∈ ts.foldl (fun line t => addAt t.row t.value line) line, IsNumber e.2) ↔
        (∀ e ∈ line, IsNumber e.2) ∧ ∀ t ∈ ts, IsNumber t.value := by
    intro ts
    induction ts with
    | nil => simp
    | cons t ts ih =>
      intro line
      rw [List.foldl_cons, ih, isNumber_addAt, List.forall_mem_cons]
      tauto
  simp only [IsNumeric, ofTriplets, List.forall_mem_map, List.mem_range, hfold, List.not_mem_nil,
    false_implies, implies_true, true_and, List.mem_filter, beq_iff_eq, and_imp]
  exact ⟨fun h t ht hlt => h t.column hlt t ht rfl, fun h j hj t ht hcolumn =>
    h t ht (by omega)⟩

/-- The matrix made of triplets has a line for each column. -/
theorem length_ofTriplets [Add α] {ts : List (Triplet α)} :
    (ofTriplets height width ts).lines.length = width := by
  simp [ofTriplets]

/-- The triplets of a matrix lie in its columns. -/
theorem column_lt_of_mem_triplets {ts : List (Triplet (Exact K))} {t : Triplet (Exact K)}
    (ht : t ∈ (ofTriplets height width ts).triplets) : t.column < width := by
  obtain ⟨⟨line, j⟩, hline, ht⟩ := List.mem_flatMap.1 ht
  obtain ⟨e, _, rfl⟩ := List.mem_map.1 ht
  have hlt := (List.getElem?_eq_some_iff.1 (List.mem_zipIdx_iff_getElem?.1 hline)).1
  rwa [length_ofTriplets] at hlt

/-- The product of two lines of numbers is a number. -/
theorem isNumber_lineProduct {l r : List (Nat × Exact K)}
    (hl : ∀ e ∈ l, IsNumber e.2) (hr : ∀ e ∈ r, IsNumber e.2) : IsNumber (lineProduct l r) := by
  have hlookup : ∀ {p : Nat} {y : Exact K}, r.lookup p = some y → IsNumber y := by
    intro p y hy
    obtain ⟨_, _, rfl, _⟩ := List.lookup_eq_some_iff.1 hy
    exact hr (p, y) (by simp)
  unfold lineProduct
  have hstart : IsNumber (0 : Exact K) := Exact.isNumber_zero
  generalize (0 : Exact K) = a at hstart
  induction l generalizing a with
  | nil => exact hstart
  | cons e l ih =>
    obtain ⟨p, x⟩ := e
    have hx : IsNumber x := hl (p, x) (List.mem_cons_self ..)
    rw [List.foldl_cons]
    refine ih (fun e he => hl e (List.mem_cons_of_mem _ he)) _ ?_
    simp only
    split
    · next y hy => exact Exact.isNumber_add.2 ⟨hstart, Exact.isNumber_mul.2 ⟨hx, hlookup hy⟩⟩
    · exact hstart

omit [Field K] [LinearOrder K] [PartialFunctions K] in
/-- The rows of a matrix of numbers are rows of numbers. -/
theorem IsNumeric.isNumber_of_mem_row (hA : A.IsNumeric) (i : Nat) :
    ∀ e ∈ A.storedByRows.lines.getD i [], IsNumber e.2 := by
  have hrows : ∀ line ∈ A.storedByRows.lines, ∀ e ∈ line, IsNumber e.2 := by
    unfold storedByRows
    split
    · exact hA
    · intro line hline e he
      obtain ⟨i, _, rfl⟩ := List.mem_map.1 hline
      obtain ⟨⟨column, j⟩, hcolumn, he⟩ := List.mem_filterMap.1 he
      obtain ⟨v, hv, rfl⟩ := Option.map_eq_some_iff.1 he
      obtain ⟨_, _, rfl, _⟩ := List.lookup_eq_some_iff.1 hv
      exact hA _ (List.fst_mem_of_mem_zipIdx hcolumn) (i, v) (by simp)
  intro e he
  rw [List.getD_eq_getElem?_getD] at he
  cases hi : A.storedByRows.lines[i]? with
  | none =>
    rw [hi] at he
    cases he
  | some line =>
    rw [hi] at he
    exact hrows line (List.mem_of_getElem? hi) e he

/-- The product with the transpose has only numbers for its entries. -/
theorem IsNumeric.numbers_timesTranspose (hA : A.IsNumeric) :
    ∀ c ∈ A.timesTranspose.columns, Numbers c := by
  intro c hc a ha
  obtain ⟨j, _, rfl⟩ := List.mem_map.1 hc
  obtain ⟨i, _, rfl⟩ := List.mem_map.1 ha
  exact isNumber_lineProduct (hA.isNumber_of_mem_row i) (hA.isNumber_of_mem_row j)

/-! ## Entries that are numbers -/

/-- A sum is a number only if all its terms are, and then it is the sum of these numbers. -/
theorem sum_eq_number {l : List (Exact K)} : ∀ {x : K}, l.sum = .number x ↔
    Numbers l ∧ (l.map Exact.toNumber).sum = x := by
  induction l with
  | nil =>
    intro x
    rw [List.sum_nil, List.map_nil, List.sum_nil]
    exact ⟨fun h => ⟨nofun, Exact.number.inj h⟩, fun h => congrArg Exact.number h.2⟩
  | cons a l ih =>
    intro x
    rw [List.sum_cons, List.map_cons, List.sum_cons]
    refine Exact.add_eq_number.trans ⟨?_, ?_⟩
    · rintro ⟨y, z, rfl, hz, rfl⟩
      obtain ⟨hl, hsum⟩ := ih.1 hz
      exact ⟨List.forall_mem_cons.2 ⟨Exact.isNumber_number y, hl⟩, congrArg (y + ·) hsum⟩
    · rintro ⟨hnumbers, hsum⟩
      obtain ⟨⟨y, rfl⟩, hl⟩ := List.forall_mem_cons.1 hnumbers
      exact ⟨y, _, rfl, ih.2 ⟨hl, rfl⟩, hsum⟩

/-- A matrix whose entries are numbers stores numbers. -/
theorem isNumeric_of_entry (hinside : ∀ t ∈ A.triplets, t.row < height ∧ t.column < width)
    (hentry : ∀ i < height, ∀ j < width, IsNumber (A.entry i j)) : A.IsNumeric := by
  refine isNumeric_iff.2 fun t ht => ?_
  obtain ⟨x, hx⟩ := hentry t.row (hinside t ht).1 t.column (hinside t ht).2
  rw [entry_eq_sum] at hx
  have hnumber := (sum_eq_number.1 hx).1 _ (List.mem_map_of_mem ht)
  rwa [if_pos ⟨rfl, rfl⟩] at hnumber

/-- The entries of a matrix whose columns have been multiplied by numbers. -/
theorem IsNumeric.entry_ofTriplets_mul (hA : A.IsNumeric) (w : Nat → K) (i : Nat) {j : Nat}
    (hj : j < width) :
    (ofTriplets height width (A.triplets.map fun t =>
      { t with value := t.value * .number (w t.column) })).entry i j =
      .number ((A.entry i j).toNumber * w j) := by
  have hnumbers := isNumeric_iff.1 hA
  have hentry : A.entry i j = .number (A.triplets.map fun t =>
      if t.row = i ∧ t.column = j then t.value.toNumber else 0).sum := by
    rw [entry_eq_sum, sum_eq_number, List.map_map]
    refine ⟨List.forall_mem_map.2 fun t ht => ?_, congrArg List.sum (List.map_congr_left ?_)⟩
    · split
      · exact hnumbers t ht
      · exact Exact.isNumber_zero
    · intro t _
      rw [Function.comp_apply, apply_ite Exact.toNumber]
      rfl
  rw [entry_ofTriplets _ i hj, hentry, sum_eq_number, Exact.toNumber, ← List.sum_map_mul_right,
    List.map_map, List.map_map]
  refine ⟨List.forall_mem_map.2 fun t ht => ?_, congrArg List.sum (List.map_congr_left ?_)⟩
  · rw [Function.comp_apply]
    split
    · exact Exact.isNumber_mul.2 ⟨hnumbers t ht, Exact.isNumber_number _⟩
    · exact Exact.isNumber_zero
  · intro t ht
    obtain ⟨x, hx⟩ := hnumbers t ht
    simp only [Function.comp_apply]
    split
    · next hpos =>
      rw [hx, hpos.2]
      rfl
    · exact (zero_mul _).symm

/-! ## Products of rows -/

variable {line l r : List (Nat × Exact K)}

/-- An entry of a line of numbers is a number. -/
theorem isNumber_lineEntry (hline : ∀ e ∈ line, IsNumber e.2) (i : Nat) :
    IsNumber (lineEntry line i) := by
  induction line with
  | nil => exact Exact.isNumber_zero
  | cons e line ih =>
    obtain ⟨he, hline⟩ := List.forall_mem_cons.1 hline
    rw [lineEntry_cons]
    refine Exact.isNumber_add.2 ⟨?_, ih hline⟩
    split
    · exact he
    · exact Exact.isNumber_zero

/-- A sum over what a line stores is a sum over its entries. -/
theorem sum_line {n : Nat} (hline : ∀ e ∈ line, IsNumber e.2) (hlt : ∀ e ∈ line, e.1 < n)
    (g : Nat → K) : (line.map fun e => e.2.toNumber * g e.1).sum =
      ∑ i : Fin n, (lineEntry line i).toNumber * g i := by
  induction line with
  | nil =>
    change 0 = ∑ i : Fin n, 0 * g i
    simp only [zero_mul, Finset.sum_const_zero]
  | cons e line ih =>
    obtain ⟨⟨x, hx⟩, hline⟩ := List.forall_mem_cons.1 hline
    obtain ⟨he, hlt⟩ := List.forall_mem_cons.1 hlt
    have hentry : ∀ i : Fin n, (lineEntry (e :: line) i).toNumber =
        (if ⟨e.1, he⟩ = i then x else 0) + (lineEntry line i).toNumber := by
      intro i
      obtain ⟨y, hy⟩ := isNumber_lineEntry hline i
      rw [lineEntry_cons, hx, hy]
      by_cases hi : e.1 = i
      · rw [if_pos hi, if_pos (Fin.ext hi)]
        rfl
      · rw [if_neg hi, if_neg (mt (congrArg Fin.val) hi), zero_add, zero_add]
    simp only [hentry, add_mul, ite_mul, zero_mul]
    rw [List.map_cons, List.sum_cons, ih hline hlt, Finset.sum_add_distrib, Finset.sum_ite_eq,
      if_pos (Finset.mem_univ _), hx]
    rfl

/-- The product of two lines of numbers. -/
theorem lineProduct_eq (hl : ∀ e ∈ l, IsNumber e.2) (hr : ∀ e ∈ r, IsNumber e.2)
    (hascending : Ascending r) : lineProduct l r =
      .number (l.map fun e => e.2.toNumber * (lineEntry r e.1).toNumber).sum := by
  unfold lineProduct
  induction l using List.reverseRecOn with
  | nil => rfl
  | append_singleton l e ih =>
    obtain ⟨hl, he⟩ := List.forall_mem_append.1 hl
    obtain ⟨x, hx⟩ := he e (List.mem_singleton_self e)
    rw [List.foldl_append, ih hl, List.map_append, List.sum_append, List.map_singleton,
      List.sum_singleton, hascending.lineEntry_eq, hx]
    cases hlookup : r.lookup e.1 with
    | none =>
      simp only [List.foldl_cons, List.foldl_nil, hlookup]
      change _ = Exact.number (_ + x * 0)
      rw [mul_zero, add_zero]
    | some y =>
      obtain ⟨_, _, rfl, _⟩ := List.lookup_eq_some_iff.1 hlookup
      obtain ⟨y, rfl⟩ : IsNumber y := hr (e.1, y) (by simp)
      simp only [List.foldl_cons, List.foldl_nil, hlookup, hx]
      rfl

/-- The entries of the product with the transpose are the products of the rows. -/
theorem IsNumeric.entry_timesTranspose (hA : A.IsNumeric) (hcolumns : A.StoresColumns) {i j : Nat}
    (hi : i < A.height) (hj : j < A.height) : A.timesTranspose.entry i j =
      .number (∑ c : Fin A.width, (A.entry i c).toNumber * (A.entry j c).toNumber) := by
  have hposition : ∀ e ∈ storedRow A.lines i 0, e.1 < A.width := by
    intro e he
    obtain ⟨⟨column, c⟩, hcolumn, he⟩ := List.mem_filterMap.1 he
    obtain ⟨v, _, rfl⟩ := Option.map_eq_some_iff.1 he
    have hlt := (List.getElem?_eq_some_iff.1 (List.mem_zipIdx_iff_getElem?.1 hcolumn)).1
    rwa [hcolumns.length] at hlt
  have hi' := hA.isNumber_of_mem_row i
  have hj' := hA.isNumber_of_mem_row j
  rw [hcolumns.getD_storedByRows hi] at hi'
  rw [hcolumns.getD_storedByRows hj] at hj'
  rw [timesTranspose, DenseMatrix.entry_ofFn hi hj, hcolumns.getD_storedByRows hi,
    hcolumns.getD_storedByRows hj, lineProduct_eq hi' hj' (ascending_storedRow ..),
    sum_line hi' hposition fun c => (lineEntry (storedRow A.lines j 0) c).toNumber]
  simp only [hcolumns.lineEntry_storedRow]

end

end SparseMatrix

end SketchSolver
