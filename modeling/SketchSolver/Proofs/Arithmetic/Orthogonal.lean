import Mathlib.Tactic.FieldSimp
import SketchSolver.Proofs.Arithmetic.Factorization

/-!
# Reflections of numbers

In exact arithmetic a reflection deserves its name: along a vector `v`, with a weight `w` such that
`w (v · v) = 2`, it keeps the product of any two vectors (`dot_mirror`), and so does a sequence of
such reflections (`Orthogonal.dot_eq`). The reflection that is chosen for a column divides by the
sum of an entry and a length of the same sign, so it is one by numbers, and it sends the column to a
multiple of the first unit vector (`Reflection.along_spec`).
-/

namespace SketchSolver

variable [Field K]

/-! ## One reflection -/

/-- The vector `y` reflected along `v`. -/
def mirror (w : K) (v y : List K) : List K :=
  List.zipWith (fun a b => b - w * dot v y * a) v y

section
variable {w : K} {v y z : List K}

/-- A reflection keeps the length of a list. -/
theorem length_mirror (h : v.length = y.length) : (mirror w v y).length = y.length := by
  rw [mirror, List.length_zipWith, h, Nat.min_self]

/-- A reflection turns the product with the vector along which it reflects around. -/
theorem dot_mirror_left (hv : w * dot v v = 2) (h : v.length = y.length) :
    dot v (mirror w v y) = -dot v y := by
  rw [dot_comm, mirror, dot_sub_mul _ _ h, dot_comm y v]
  linear_combination -dot v y * hv

/-- A reflection keeps products. -/
theorem dot_mirror (hv : w * dot v v = 2) (hy : v.length = y.length) (hz : v.length = z.length) :
    dot (mirror w v y) (mirror w v z) = dot y z := by
  rw [mirror, dot_sub_mul _ _ hy, dot_mirror_left hv hz, dot_comm y, mirror, dot_sub_mul _ _ hz,
    dot_comm z y]
  ring

/-- What the first reflection makes of a vector. -/
theorem exists_mirror_eq {n : Nat} (hlength : v.length = n + 1) (hy : y.length = n + 1) :
    ∃ x xs, mirror w v y = x :: xs ∧ xs.length = n := by
  obtain ⟨x, xs, hmirror⟩ := List.exists_cons_of_length_eq_add_one
    ((length_mirror (hlength.trans hy.symm)).trans hy)
  refine ⟨x, xs, hmirror, ?_⟩
  have hsame := length_mirror (w := w) (hlength.trans hy.symm)
  rw [hmirror, hy] at hsame
  exact Nat.succ.inj hsame

/-- Which reflection sends a vector to a multiple of the first unit vector. -/
theorem mirror_along [LinearOrder K] [IsStrictOrderedRing K] {sign lead length x : K} {xs : List K}
    (hsign : sign * sign = 1) (hlead : lead = x + sign * length) (hne : lead ≠ 0)
    (hlength : length * length = dot (x :: xs) (x :: xs)) :
    mirror (2 / dot (1 :: xs.map (· / lead)) (1 :: xs.map (· / lead)))
        (1 :: xs.map (· / lead)) (x :: xs) = -sign * length :: List.replicate xs.length 0 := by
  have hpos := (dot_one_pos (xs.map (· / lead))).ne'
  have hsum : 2 / dot (1 :: xs.map (· / lead)) (1 :: xs.map (· / lead)) *
      dot (1 :: xs.map (· / lead)) (x :: xs) = lead := by
    rw [div_mul_eq_mul_div, div_eq_iff hpos]
    rw [dot_cons] at hlength
    rw [dot_cons, dot_cons, dot_map_div, dot_map_div, dot_comm xs (xs.map _), dot_map_div]
    field_simp
    subst hlead
    linear_combination (-1) * hlength - length ^ 2 * hsign
  have hrest : ∀ ys : List K, List.zipWith (fun a b => b - lead * a) (ys.map (· / lead)) ys =
      List.replicate ys.length 0 := by
    intro ys
    induction ys with
    | nil => rfl
    | cons y ys ih =>
      rw [List.map_cons, List.zipWith_cons_cons, ih, mul_div_cancel₀ y hne, sub_self]
      rfl
  rw [mirror, hsum, List.zipWith_cons_cons, hrest, mul_one, hlead, sub_add_cancel_left, neg_mul]

end

/-! ## Reflections of a factorization -/

variable [LinearOrder K] [PartialFunctions K]

namespace Reflection

/-- On numbers a multiple of the vector is subtracted entry by entry. -/
theorem subtract_numbers (s : K) : ∀ {tail ys : List K}, tail.length = ys.length →
    subtract (.number s) (numbers tail) (numbers ys) =
      numbers (List.zipWith (fun a b => b - s * a) tail ys)
  | [], [], _ => rfl
  | v :: _, y :: _, h =>
    congrArg (Exact.number (y - s * v) :: ·) (subtract_numbers s (Nat.succ.inj h))

/-- The reflection by a weight and the tail of a vector that begins with one reflects along that
vector. -/
theorem apply_numbers {w : K} {tail l : List K} (h : tail.length + 1 = l.length) :
    (⟨.number w, numbers tail⟩ : Reflection (Exact K)).apply (numbers l) =
      numbers (mirror w (1 :: tail) l) := by
  obtain ⟨y, ys, rfl⟩ := List.exists_cons_of_length_eq_add_one h.symm
  have htail : tail.length = ys.length := Nat.succ.inj h
  have hfold : ∀ (vs ys : List K) (a : K),
      ((numbers vs).zip (numbers ys)).foldl (fun s (v, y) => s + v * y) (.number a) =
        .number (a + dot vs ys) := by
    intro vs
    induction vs with
    | nil => exact fun _ a => congrArg Exact.number (add_zero a).symm
    | cons v vs ih =>
      intro ys a
      cases ys with
      | nil => exact congrArg Exact.number (add_zero a).symm
      | cons y ys => exact (ih ys _).trans (congrArg Exact.number (add_assoc ..))
  have hsum : ((numbers tail).zip (numbers ys)).foldl (fun s (v, y) => s + v * y) (.number y) *
      .number w = .number (w * dot (1 :: tail) (y :: ys)) := by
    rw [hfold, Exact.number_mul, dot_cons, one_mul, mul_comm]
  rw [show numbers (y :: ys) = .number y :: numbers ys from rfl, apply]
  simp only [hsum]
  rw [subtract_numbers _ htail, mirror, List.zipWith_cons_cons, mul_one]
  rfl

/-- The reflection for a column adds to its first entry a length of the same sign, so nothing
cancels in the sum that it divides by. -/
theorem exists_along_eq [IsStrictOrderedRing K] {length : K} (hlength : 0 < length) (x : K)
    (xs : List K) : ∃ sign lead : K, sign * sign = 1 ∧ lead = x + sign * length ∧ lead ≠ 0 ∧
      along (.number length) (.number x) (numbers xs) =
        (⟨.number (2 / dot (1 :: xs.map (· / lead)) (1 :: xs.map (· / lead))),
          numbers (xs.map (· / lead))⟩, .number (-sign * length)) := by
  obtain ⟨sign, hsign, hsquare, hlead⟩ : ∃ sign : K,
      (if (0 : Exact K) ≤ .number x then 1 else -1 : Exact K) = .number sign ∧
        sign * sign = 1 ∧ x + sign * length ≠ 0 := by
    by_cases hx : 0 ≤ x
    · have hle : (0 : Exact K) ≤ .number x := hx
      refine ⟨1, if_pos hle, one_mul 1, ?_⟩
      rw [one_mul]
      exact ne_of_gt (add_pos_of_nonneg_of_pos hx hlength)
    · have hle : ¬ (0 : Exact K) ≤ .number x := hx
      refine ⟨-1, if_neg hle, by ring, ?_⟩
      rw [neg_one_mul]
      exact ne_of_lt (by linarith [not_le.1 hx])
  have htail : (numbers xs).map (· / .number (x + sign * length)) =
      numbers (xs.map (· / (x + sign * length))) := by
    rw [numbers, numbers, List.map_map, List.map_map]
    exact List.map_congr_left fun a _ => Exact.div_eq_number.2 ⟨a, _, rfl, rfl, hlead, rfl⟩
  refine ⟨sign, _, hsquare, rfl, hlead, ?_⟩
  generalize hlist : xs.map (· / (x + sign * length)) = tail at htail ⊢
  have hpos : dot (1 :: tail) (1 :: tail) ≠ 0 := (dot_one_pos tail).ne'
  have hnorm : (numbers tail).foldl (fun s v => s + v * v) 1 =
      .number (dot (1 :: tail) (1 :: tail)) := by
    rw [dot_cons, one_mul]
    exact foldl_square_numbers tail 1
  have hweight : ((2 : Nat) : Exact K) / .number (dot (1 :: tail) (1 :: tail)) =
      .number (2 / dot (1 :: tail) (1 :: tail)) :=
    Exact.div_eq_number.2 ⟨2, _, rfl, rfl, hpos, rfl⟩
  simp only [along, hsign, Exact.number_mul, Exact.number_add, Exact.neg_number, htail, hnorm,
    hweight]

/-- The reflection for a column sends it to a multiple of the first unit vector. -/
theorem along_spec [IsStrictOrderedRing K] {length x : K} {xs : List K} (hlength : 0 < length)
    (hsquare : length * length = dot (x :: xs) (x :: xs)) : ∃ (w d : K) (tail : List K),
      along (.number length) (.number x) (numbers xs) = (⟨.number w, numbers tail⟩, .number d) ∧
      tail.length = xs.length ∧ w * dot (1 :: tail) (1 :: tail) = 2 ∧
      mirror w (1 :: tail) (x :: xs) = d :: List.replicate xs.length 0 := by
  obtain ⟨sign, lead, hsign, hlead, hne, halong⟩ := exists_along_eq hlength x xs
  exact ⟨_, _, _, halong, List.length_map _, div_mul_cancel₀ 2 (dot_one_pos _).ne',
    mirror_along hsign hlead hne hsquare⟩

end Reflection

/-- Reflections of vectors of the given length, and of one entry less each time. -/
inductive Orthogonal : Nat → List (Reflection (Exact K)) → Prop
  | nil (n : Nat) : Orthogonal n []
  | cons {n : Nat} {w : K} {tail : List K} {rs : List (Reflection (Exact K))}
      (length : tail.length = n) (weight : w * dot (1 :: tail) (1 :: tail) = 2)
      (rest : Orthogonal n rs) : Orthogonal (n + 1) (⟨.number w, numbers tail⟩ :: rs)

section
variable [IsStrictOrderedRing K] {n : Nat} {rs : List (Reflection (Exact K))}
  {y y' z z' : List K}

/-- The first reflection settles the first entry. -/
theorem PivotedQR.reflectAll_numbers {w x : K} {tail xs : List K}
    (hlength : tail.length + 1 = y.length) (hw : w * dot (1 :: tail) (1 :: tail) = 2)
    (hy : mirror w (1 :: tail) y = x :: xs) :
    reflectAll (⟨.number w, numbers tail⟩ :: rs) (numbers y) =
      .number x :: reflectAll rs (numbers xs) := by
  have hne : ((.number w : Exact K) == 0) = false := by
    rw [Bool.eq_false_iff]
    intro hzero
    have hzero : w = 0 := Exact.number.inj (Exact.beq_number.1 hzero)
    rw [hzero, zero_mul] at hw
    exact two_ne_zero hw.symm
  rw [reflectAll]
  simp only [hne]
  rw [if_neg Bool.false_ne_true, Reflection.apply_numbers hlength, hy]
  rfl

open PivotedQR (reflectAll reflectAll_numbers)

omit [LinearOrder K] [PartialFunctions K] [IsStrictOrderedRing K] in
/-- Reflections that are orthogonal are made of numbers. -/
theorem Orthogonal.isNumeric (h : Orthogonal n rs) : ∀ r ∈ rs, r.IsNumeric := by
  induction h with
  | nil => nofun
  | cons _ _ _ ih =>
    exact List.forall_mem_cons.2 ⟨⟨Exact.isNumber_number _, numbers_numbers _⟩, ih⟩

/-- Reflections of numbers are numbers. -/
theorem Orthogonal.exists_image (h : Orthogonal n rs) : ∀ {y : List K}, y.length = n →
    ∃ z : List K, z.length = n ∧ reflectAll rs (numbers y) = numbers z := by
  induction h with
  | nil n => exact fun {y} hy => ⟨y, hy, rfl⟩
  | @cons n w tail rs hlength hw _ ih =>
    intro y hy
    have hv : (1 :: tail : List K).length = n + 1 := by simp [hlength]
    obtain ⟨x, xs, hmirror, hxs⟩ := exists_mirror_eq (w := w) hv hy
    obtain ⟨z, hz, himage⟩ := ih hxs
    refine ⟨x :: z, congrArg (· + 1) hz, ?_⟩
    rw [reflectAll_numbers (by rw [hlength, hy]) hw hmirror, himage]
    rfl

/-- Reflections keep products. -/
theorem Orthogonal.dot_eq (h : Orthogonal n rs) : ∀ {y y' z z' : List K}, y.length = n →
    y'.length = n → reflectAll rs (numbers y) = numbers z →
      reflectAll rs (numbers y') = numbers z' → dot z z' = dot y y' := by
  have hinj : Function.Injective (numbers (K := K)) :=
    List.map_injective_iff.2 fun _ _ => Exact.number.inj
  induction h with
  | nil n =>
    intro y y' z z' _ _ hz hz'
    rw [hinj hz, hinj hz']
  | @cons n w tail rs hlength hw hrs ih =>
    intro y y' z z' hy hy' hz hz'
    have hv : (1 :: tail : List K).length = n + 1 := by simp [hlength]
    obtain ⟨x, xs, hmirror, hxs⟩ := exists_mirror_eq (w := w) hv hy
    obtain ⟨x', xs', hmirror', hxs'⟩ := exists_mirror_eq (w := w) hv hy'
    obtain ⟨u, _, hu⟩ := hrs.exists_image hxs
    obtain ⟨u', _, hu'⟩ := hrs.exists_image hxs'
    rw [reflectAll_numbers (by rw [hlength, hy]) hw hmirror, hu] at hz
    rw [reflectAll_numbers (by rw [hlength, hy']) hw hmirror', hu'] at hz'
    obtain rfl : x :: u = z := hinj hz
    obtain rfl : x' :: u' = z' := hinj hz'
    rw [dot_cons, ih hxs hxs' hu hu', ← dot_cons, ← hmirror, ← hmirror',
      dot_mirror hw (hv.trans hy.symm) (hv.trans hy'.symm)]

end

end SketchSolver
