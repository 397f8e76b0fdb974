import Mathlib.Tactic.Ring
import SketchSolver.Proofs.Arithmetic.Exact

/-!
# Numbers and vectors of numbers

An exact number may be undefined (`Exact.IsNumber` says that it is not), and an undefined factor is
not dropped from a product with zero. So what holds of vectors of a field is said here of lists of
numbers (`Numbers`), whose lengths are those of the vectors of the field (`squaredNorm_numbers`).

A factorization takes lengths of columns, so the numbers must have the roots of all that is not
negative (`TotalRoot`), as the reals have.
-/

namespace SketchSolver

/-- Whatever is not negative has a square root. -/
class TotalRoot (K : Type u) [Field K] [LinearOrder K] [PartialFunctions K] : Prop where
  exists_sqrt : ∀ {x : K}, 0 ≤ x → ∃ y, PartialFunctions.sqrt x = some y

/-- Every real that is not negative has a root. -/
instance : TotalRoot ℝ where
  exists_sqrt hx := ⟨_, if_pos hx⟩

namespace Exact

/-! ## Numbers -/

/-- The value is defined. -/
def IsNumber (a : Exact K) : Prop :=
  ∃ x, a = .number x

variable {a b : Exact K}

@[simp] theorem isNumber_number (x : K) : IsNumber (.number x) :=
  ⟨x, rfl⟩

/-- What is no number is undefined. -/
theorem eq_undefined (ha : ¬ IsNumber a) : a = .undefined := by
  cases a with
  | number x => exact absurd (isNumber_number x) ha
  | undefined => rfl

/-- An operation that is a number on all numbers is one on nothing else. -/
theorem isNumber_of_total {c : Exact K} {f : K → K → K}
    (h : ∀ z, c = .number z ↔ ∃ x y, a = .number x ∧ b = .number y ∧ f x y = z) :
    IsNumber c ↔ IsNumber a ∧ IsNumber b := by
  simp only [IsNumber, h]
  constructor
  · rintro ⟨_, x, y, ha, hb, _⟩
    exact ⟨⟨x, ha⟩, y, hb⟩
  · rintro ⟨⟨x, ha⟩, y, hb⟩
    exact ⟨_, x, y, ha, hb, rfl⟩

variable [Field K] [LinearOrder K] [PartialFunctions K]

@[simp] theorem isNumber_zero : IsNumber (0 : Exact K) :=
  ⟨0, rfl⟩

@[simp] theorem isNumber_one : IsNumber (1 : Exact K) :=
  ⟨1, rfl⟩

@[simp] theorem isNumber_natCast (n : Nat) : IsNumber (n : Exact K) :=
  ⟨n, rfl⟩

@[simp] theorem isNumber_add : IsNumber (a + b) ↔ IsNumber a ∧ IsNumber b :=
  isNumber_of_total fun _ => add_eq_number

@[simp] theorem isNumber_sub : IsNumber (a - b) ↔ IsNumber a ∧ IsNumber b :=
  isNumber_of_total fun _ => sub_eq_number

@[simp] theorem isNumber_mul : IsNumber (a * b) ↔ IsNumber a ∧ IsNumber b :=
  isNumber_of_total fun _ => mul_eq_number

/-- A negation is a number if its operand is. -/
@[simp] theorem isNumber_neg : IsNumber (-a) ↔ IsNumber a := by
  simp only [IsNumber, neg_eq_number]
  constructor
  · rintro ⟨_, x, ha, _⟩
    exact ⟨x, ha⟩
  · rintro ⟨x, ha⟩
    exact ⟨_, x, ha, rfl⟩

/-- A number times zero is zero. -/
theorem mul_zero_of_isNumber (ha : IsNumber a) : a * 0 = 0 := by
  obtain ⟨x, rfl⟩ := ha
  exact congrArg number (mul_zero x)

/-- Zero times a number is zero. -/
theorem zero_mul_of_isNumber (ha : IsNumber a) : 0 * a = 0 := by
  obtain ⟨x, rfl⟩ := ha
  exact congrArg number (zero_mul x)

/-- Subtracting zero changes nothing, not even what is undefined. -/
theorem sub_zero_eq (a : Exact K) : a - 0 = a := by
  cases a with
  | number x => exact congrArg number (sub_zero x)
  | undefined => rfl

/-- What is not negative has a root. -/
theorem exists_sqrt_eq [TotalRoot K] {x : K} (hx : 0 ≤ x) :
    ∃ y : K, Scalar.sqrt (.number x : Exact K) = .number y := by
  obtain ⟨y, hy⟩ := TotalRoot.exists_sqrt hx
  refine ⟨y, ?_⟩
  change Exact.ofOption (PartialFunctions.sqrt x) = _
  rw [hy]
  rfl

end Exact

/-! ## Products -/

section
variable [Field K]

/-- The sum of the products of the entries at the same places. -/
def dot : List K → List K → K
  | x :: xs, y :: ys => x * y + dot xs ys
  | _, _ => 0

/-- The product with an empty list is zero. -/
theorem dot_nil (xs : List K) : dot xs [] = 0 := by
  cases xs <;> rfl

/-- The product of lists is that of their heads and of what follows. -/
theorem dot_cons (x y : K) (xs ys : List K) : dot (x :: xs) (y :: ys) = x * y + dot xs ys :=
  rfl

/-- The product of lists is symmetric. -/
theorem dot_comm : ∀ xs ys : List K, dot xs ys = dot ys xs
  | [], ys => (dot_nil ys).symm
  | x :: xs, [] => rfl
  | x :: xs, y :: ys => by rw [dot_cons, dot_cons, dot_comm xs ys, mul_comm]

/-- The product is linear in the first vector. -/
theorem dot_sub_mul (s : K) : ∀ {v y : List K} (z : List K), v.length = y.length →
    dot (List.zipWith (fun a b => b - s * a) v y) z = dot y z - s * dot v z
  | [], [], z, _ => by simp [dot]
  | a :: v, b :: y, [], _ => by simp [dot_nil]
  | a :: v, b :: y, c :: z, h => by
    rw [List.zipWith_cons_cons, dot_cons, dot_cons, dot_cons, dot_sub_mul s z (Nat.succ.inj h)]
    ring

/-- A divisor of all entries divides the product. -/
theorem dot_map_div (c : K) : ∀ xs ys : List K, dot (xs.map (· / c)) ys = dot xs ys / c
  | [], _ => (zero_div c).symm
  | _ :: _, [] => (zero_div c).symm
  | x :: xs, y :: ys => by
    rw [List.map_cons, dot_cons, dot_cons, dot_map_div c xs ys, add_div, div_mul_eq_mul_div]

/-- The product with a list of zeros is zero. -/
theorem dot_replicate_zero : ∀ (n : Nat) (ys : List K), dot (List.replicate n 0) ys = 0
  | 0, _ => rfl
  | _ + 1, [] => rfl
  | n + 1, y :: ys => by
    rw [List.replicate_succ, dot_cons, dot_replicate_zero n ys, zero_mul, add_zero]

/-- A product is the sum of what the first entries and the others contribute. -/
theorem dot_take_add_dot_drop : ∀ (n : Nat) (xs ys : List K),
    dot (xs.take n) (ys.take n) + dot (xs.drop n) (ys.drop n) = dot xs ys
  | 0, _, _ => zero_add _
  | _ + 1, [], _ => zero_add _
  | _ + 1, _ :: _, [] => by simp [dot_nil]
  | n + 1, x :: xs, y :: ys => by
    rw [dot_cons, ← dot_take_add_dot_drop n xs ys, ← add_assoc]
    rfl

section
variable [LinearOrder K] [IsStrictOrderedRing K]

/-- The product of a list with itself is not negative. -/
theorem dot_self_nonneg : ∀ xs : List K, 0 ≤ dot xs xs
  | [] => le_rfl
  | x :: xs => add_nonneg (mul_self_nonneg x) (dot_self_nonneg xs)

/-- The product of a list with itself is positive if it begins with one. -/
theorem dot_one_pos (xs : List K) : 0 < dot (1 :: xs) (1 :: xs) :=
  add_pos_of_pos_of_nonneg (mul_pos one_pos one_pos) (dot_self_nonneg xs)

/-- Only a vector of zeros has the length zero. -/
theorem eq_replicate_of_dot_self : ∀ {xs : List K}, dot xs xs = 0 →
    xs = List.replicate xs.length 0
  | [], _ => rfl
  | x :: xs, h => by
    obtain ⟨hx, hxs⟩ := (add_eq_zero_iff_of_nonneg (mul_self_nonneg x) (dot_self_nonneg xs)).1 h
    rw [List.length_cons, List.replicate_succ, ← eq_replicate_of_dot_self hxs,
      mul_self_eq_zero.1 hx]

/-- A vector is longer than zero if it has an entry that is not zero. -/
theorem dot_self_pos_iff {xs : List K} : 0 < dot xs xs ↔ ∃ x ∈ xs, x ≠ 0 := by
  rw [(dot_self_nonneg xs).lt_iff_ne', ne_eq, ← not_iff_not]
  simp only [not_not, not_exists, not_and]
  constructor
  · intro h x hx
    rw [eq_replicate_of_dot_self h] at hx
    exact List.eq_of_mem_replicate hx
  · intro h
    induction xs with
    | nil => rfl
    | cons x xs ih =>
      obtain ⟨rfl, hxs⟩ := List.forall_mem_cons.1 h
      rw [dot_cons, mul_zero, zero_add, ih hxs]

end

/-! ## Vectors of numbers -/

/-- All values of the list are defined. -/
def Numbers (l : List (Exact K)) : Prop :=
  ∀ a ∈ l, Exact.IsNumber a

/-- Numbers, as values of an arithmetic in which not all are defined. -/
def numbers (l : List K) : List (Exact K) :=
  l.map .number

omit [Field K] in
/-- A list of numbers of the field is one of numbers. -/
theorem numbers_numbers (l : List K) : Numbers (numbers l) := by
  intro a ha
  obtain ⟨x, _, rfl⟩ := List.mem_map.1 ha
  exact Exact.isNumber_number x

omit [Field K] in
/-- A list of which all members are numbers is one of the field. -/
theorem Numbers.exists_eq : ∀ {l : List (Exact K)}, Numbers l → ∃ l', l = numbers l'
  | [], _ => ⟨[], rfl⟩
  | a :: l, hl => by
    obtain ⟨x, rfl⟩ := hl a (List.mem_cons_self ..)
    obtain ⟨l', rfl⟩ := Numbers.exists_eq fun b hb => hl b (List.mem_cons_of_mem _ hb)
    exact ⟨x :: l', rfl⟩

variable [LinearOrder K] [PartialFunctions K]

/-- A sum of squares of numbers. -/
theorem foldl_square_numbers : ∀ (l : List K) (a : K),
    (numbers l).foldl (fun s x => s + x * x) (.number a) = .number (a + dot l l)
  | [], a => congrArg Exact.number (add_zero a).symm
  | x :: l, a =>
    (foldl_square_numbers l (a + x * x)).trans (congrArg Exact.number (add_assoc ..))

/-- The square of the length of a list of numbers is its product with itself. -/
theorem squaredNorm_numbers (l : List K) : squaredNorm (numbers l) = .number (dot l l) :=
  (foldl_square_numbers l 0).trans (congrArg Exact.number (zero_add _))

/-- A squared length is not negative. -/
theorem exists_squaredNorm [IsStrictOrderedRing K] {l : List (Exact K)} (hl : Numbers l) :
    ∃ x : K, squaredNorm l = .number x ∧ 0 ≤ x := by
  obtain ⟨xs, rfl⟩ := hl.exists_eq
  exact ⟨_, squaredNorm_numbers xs, dot_self_nonneg xs⟩

end

end SketchSolver
