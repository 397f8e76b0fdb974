import Mathlib.Data.List.TakeWhile
import SketchSolver.Proofs.Arithmetic.Numbers

/-!
# Factorizations into numbers

A reflection by numbers leaves zero where it is, though an undefined one would not, and back
substitution divides by diagonal entries that are above a threshold of zero. So the basic solution
for a right side of zeros is zero, whatever the rank is, if all factors are numbers
(`PivotedQR.IsNumeric.solveBasic_zero`).
-/

namespace SketchSolver

open Exact (IsNumber)

variable [Field K] [LinearOrder K] [PartialFunctions K]

namespace Reflection

/-- A reflection by numbers. -/
structure IsNumeric (r : Reflection (Exact K)) : Prop where
  weight : IsNumber r.weight
  tail : Numbers r.tail

end Reflection

namespace PivotedColumn

/-- A column of numbers. -/
structure IsNumeric (c : PivotedColumn (Exact K)) : Prop where
  settled : Numbers c.settled
  openPart : Numbers c.openPart

/-- An entry of a column of numbers is a number, as are the zeros below those that are stored. -/
theorem IsNumeric.isNumber_entry {c : PivotedColumn (Exact K)} (hc : c.IsNumeric) (row : Nat) :
    IsNumber (c.entry row) := by
  unfold entry
  rw [List.getD_eq_getElem?_getD]
  cases hrow : (c.settled ++ c.openPart)[row]? with
  | none => exact Exact.isNumber_zero
  | some a =>
    rcases List.mem_append.1 (List.mem_of_getElem? hrow) with ha | ha
    · exact hc.settled a ha
    · exact hc.openPart a ha

end PivotedColumn

namespace PivotedQR

/-- A factorization into numbers. -/
structure IsNumeric (qr : PivotedQR (Exact K)) : Prop where
  reflections : ∀ r ∈ qr.reflections, r.IsNumeric
  columns : ∀ c ∈ qr.columns, c.IsNumeric
  largestNorm : ∃ x : K, qr.largestNorm = .number x ∧ 0 ≤ x

end PivotedQR

/-! ## Diagonal entries that count -/

/-- What a run of elements with a property ends at does not have it. -/
theorem not_of_getElem?_takeWhile {p : β → Bool} : ∀ {l : List β} {x : β},
    l[(l.takeWhile p).length]? = some x → p x = false
  | y :: l, x, hx => by
    rw [List.takeWhile_cons] at hx
    cases hy : p y with
    | true =>
      simp only [hy] at hx
      exact not_of_getElem?_takeWhile hx
    | false =>
      simp only [hy] at hx
      cases hx
      exact hy

namespace PivotedQR

variable {α : Type u} [Scalar α] {qr : PivotedQR α} {t : α}

/-- No more diagonal entries are counted than there are. -/
theorem rankAbove_le (qr : PivotedQR α) (t : α) : qr.rankAbove t ≤ qr.diagonalLength := by
  refine (List.takeWhile_sublist _).length_le.trans_eq ?_
  rw [diagonal, List.length_map, List.length_range]

/-- The diagonal entries that are counted are above the threshold. -/
theorem lt_abs_of_lt_rankAbove {i : Nat} (hi : i < qr.rankAbove t) :
    t < Scalar.abs (qr.upperEntry i i) := by
  have hlt : i < (qr.diagonal.takeWhile fun d => t < Scalar.abs d).length := hi
  have hpass := List.mem_takeWhile_imp (List.getElem_mem hlt)
  rw [(List.takeWhile_prefix _).getElem hlt] at hpass
  simpa only [diagonal, List.getElem_map, List.getElem_range, decide_eq_true_eq] using hpass

/-- The next one is not. -/
theorem not_lt_abs_rankAbove (h : qr.rankAbove t < qr.diagonalLength) :
    ¬ t < Scalar.abs (qr.upperEntry (qr.rankAbove t) (qr.rankAbove t)) := by
  have hnext : qr.diagonal[qr.rankAbove t]? =
      some (qr.upperEntry (qr.rankAbove t) (qr.rankAbove t)) := by
    rw [diagonal, List.getElem?_map, List.getElem?_range h]
    rfl
  simpa only [decide_eq_false_iff_not] using not_of_getElem?_takeWhile hnext

end PivotedQR

/-! ## A right side of zeros -/

namespace Reflection

/-- Subtracting zero times the vector of a reflection leaves zeros. -/
theorem subtract_zero : ∀ {tail : List (Exact K)} (n : Nat), Numbers tail →
    subtract 0 tail (List.replicate n 0) = List.replicate n 0
  | [], _, _ => rfl
  | _ :: _, 0, _ => rfl
  | v :: vs, n + 1, htail => by
    have hv : IsNumber v := htail v (List.mem_cons_self ..)
    rw [List.replicate_succ, subtract, Exact.zero_mul_of_isNumber hv, Exact.sub_zero_eq,
      subtract_zero n fun a ha => htail a (List.mem_cons_of_mem _ ha)]

/-- A reflection leaves zero where it is. -/
theorem IsNumeric.apply_zero {r : Reflection (Exact K)} (hr : r.IsNumeric) :
    ∀ n : Nat, r.apply (List.replicate n 0) = List.replicate n 0
  | 0 => rfl
  | n + 1 => by
    have hfold : ∀ ps : List (Exact K × Exact K), (∀ e ∈ ps, IsNumber e.1 ∧ e.2 = 0) →
        ps.foldl (fun s (v, y) => s + v * y) 0 = (0 : Exact K) := by
      intro ps
      induction ps with
      | nil => exact fun _ => rfl
      | cons e ps ih =>
        intro hps
        obtain ⟨v, y⟩ := e
        obtain ⟨hv, rfl⟩ := hps (v, y) (List.mem_cons_self ..)
        have hstep : (0 : Exact K) + v * 0 = 0 := by
          rw [Exact.mul_zero_of_isNumber hv]
          exact congrArg Exact.number (add_zero 0)
        simp only [List.foldl_cons, hstep]
        exact ih fun e he => hps e (List.mem_cons_of_mem _ he)
    have hsum : (r.tail.zip (List.replicate n 0)).foldl (fun s (v, y) => s + v * y) 0 =
        (0 : Exact K) :=
      hfold _ fun e he => ⟨hr.tail e.1 (List.of_mem_zip he).1,
        List.eq_of_mem_replicate (List.of_mem_zip he).2⟩
    rw [List.replicate_succ, apply, hsum, Exact.zero_mul_of_isNumber hr.weight, Exact.sub_zero_eq,
      subtract_zero n hr.tail]

end Reflection

namespace PivotedQR

variable {qr : PivotedQR (Exact K)}

/-- Reflections leave a vector of zeros where it is. -/
theorem reflectAll_zero : ∀ {rs : List (Reflection (Exact K))} (n : Nat),
    (∀ r ∈ rs, r.IsNumeric) → reflectAll rs (List.replicate n 0) = List.replicate n 0
  | [], _, _ => rfl
  | r :: rs, n, hrs => by
    have hr : (if r.weight == 0 then List.replicate n 0 else r.apply (List.replicate n 0)) =
        List.replicate n (0 : Exact K) := by
      split
      · rfl
      · exact (hrs r (List.mem_cons_self ..)).apply_zero n
    rw [reflectAll, hr]
    cases n with
    | zero => rfl
    | succ n =>
      simp only [List.replicate_succ]
      rw [reflectAll_zero n fun r hr => hrs r (List.mem_cons_of_mem _ hr)]

/-- The entries of the triangular factor of numbers are numbers. -/
theorem IsNumeric.isNumber_upperEntry (hqr : qr.IsNumeric) (i j : Nat) :
    IsNumber (qr.upperEntry i j) := by
  unfold upperEntry
  split
  · next c hc => exact (hqr.columns c (List.mem_of_getElem? hc)).isNumber_entry i
  · exact Exact.isNumber_zero

/-- In exact arithmetic, only a diagonal entry of zero counts as zero. -/
theorem IsNumeric.threshold_eq (hqr : qr.IsNumeric) : qr.threshold = .number 0 := by
  obtain ⟨x, hx, _⟩ := hqr.largestNorm
  have hnorm : IsNumber (if qr.largestNorm == 0 then 1 else qr.largestNorm) := by
    split
    · exact Exact.isNumber_one
    · rw [hx]
      exact Exact.isNumber_number x
  have hzero : (Scalar.epsilon : Exact K) = 0 := rfl
  unfold threshold
  simp only
  rw [hzero, Exact.mul_zero_of_isNumber]
  · rfl
  · exact Exact.isNumber_mul.2
      ⟨Exact.isNumber_mul.2 ⟨Exact.isNumber_natCast 20, Exact.isNumber_natCast _⟩, hnorm⟩

variable [IsStrictOrderedRing K]

/-- The diagonal entries that the rank counts are not zero. -/
theorem IsNumeric.diagonal_ne_zero (hqr : qr.IsNumeric) {i : Nat}
    (hi : i < qr.rank) : ∃ d : K, qr.upperEntry i i = .number d ∧ d ≠ 0 := by
  obtain ⟨d, hd⟩ := hqr.isNumber_upperEntry i i
  refine ⟨d, hd, ?_⟩
  rintro rfl
  have hlt := lt_abs_of_lt_rankAbove hi
  rw [hd, hqr.threshold_eq] at hlt
  have hself : (0 : K) < |0| := hlt
  rw [abs_zero] at hself
  exact lt_irrefl 0 hself

/-- Back substitution from zeros gives zeros. -/
theorem IsNumeric.backSubstitute_zero (hqr : qr.IsNumeric) (m : Nat) : ∀ {rows known : Nat},
    rows ≤ qr.rank → qr.backSubstitute (List.replicate m 0) rows (List.replicate known 0) =
      List.replicate (rows + known) 0
  | 0, known, _ => by rw [Nat.zero_add, backSubstitute]
  | i + 1, known, hrows => by
    have hfold : ∀ es : List (Exact K × Nat), (∀ e ∈ es, e.1 = 0) →
        es.foldl (fun s (y, k) => s - qr.upperEntry i (i + 1 + k) * y) 0 = (0 : Exact K) := by
      intro es
      induction es with
      | nil => exact fun _ => rfl
      | cons e es ih =>
        intro hes
        obtain ⟨y, k⟩ := e
        obtain rfl := hes (y, k) (List.mem_cons_self ..)
        have hstep : (0 : Exact K) - qr.upperEntry i (i + 1 + k) * 0 = 0 := by
          rw [Exact.mul_zero_of_isNumber (hqr.isNumber_upperEntry _ _), Exact.sub_zero_eq]
        simp only [List.foldl_cons, hstep]
        exact ih fun e he => hes e (List.mem_cons_of_mem _ he)
    obtain ⟨d, hd, hne⟩ := hqr.diagonal_ne_zero (Nat.lt_of_succ_le hrows)
    have hstart : (List.replicate m (0 : Exact K)).getD i 0 = 0 := by
      rw [List.getD_eq_getElem?_getD, List.getElem?_replicate]
      split <;> rfl
    have hsum := hfold (List.replicate known (0 : Exact K)).zipIdx fun e he =>
      List.eq_of_mem_replicate (List.fst_mem_of_mem_zipIdx he)
    have hquotient : (0 : Exact K) / qr.upperEntry i i = 0 := by
      rw [hd]
      exact Exact.div_eq_number.2 ⟨0, d, rfl, rfl, hne, zero_div d⟩
    rw [backSubstitute]
    simp only [hstart, hsum, hquotient]
    rw [← List.replicate_succ, hqr.backSubstitute_zero m (Nat.le_of_succ_le hrows)]
    congr 1
    omega

/-- The basic solution for a right side of zeros is zero. -/
theorem IsNumeric.solveBasic_zero (hqr : qr.IsNumeric) :
    qr.solveBasic (List.replicate qr.height 0) = some (List.replicate qr.width 0) := by
  have hback : qr.backSubstitute (List.replicate qr.height 0) qr.rank (List.replicate 0 0) =
      List.replicate (qr.rank + 0) 0 :=
    hqr.backSubstitute_zero qr.height (Nat.le_refl qr.rank)
  rw [List.replicate_zero, Nat.add_zero] at hback
  have hfold : ∀ ps : List (Nat × Exact K), (∀ e ∈ ps, e.2 = 0) →
      ps.foldl (fun x (j, v) => x.set j v) (List.replicate qr.width (0 : Exact K)) =
        List.replicate qr.width 0 := by
    intro ps
    induction ps with
    | nil => exact fun _ => rfl
    | cons e ps ih =>
      intro hps
      obtain ⟨j, v⟩ := e
      obtain rfl := hps (j, v) (List.mem_cons_self ..)
      simp only [List.foldl_cons, List.set_replicate_self]
      exact ih fun e he => hps e (List.mem_cons_of_mem _ he)
  unfold solveBasic transposeTimes
  rw [List.length_replicate, reflectAll_zero _ hqr.reflections, hback]
  rw [if_neg (by simp), if_pos]
  · rw [hfold _ fun e he => List.eq_of_mem_replicate (List.of_mem_zip he).2]
  · refine List.all_eq_true.2 fun a ha => ?_
    rw [List.eq_of_mem_replicate ha]
    rfl

end PivotedQR

end SketchSolver
