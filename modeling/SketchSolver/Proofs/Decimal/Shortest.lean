import Mathlib.Algebra.Order.Field.Power
import Mathlib.Tactic.Linarith
import Mathlib.Tactic.Positivity
import Mathlib.Tactic.Ring
import SketchSolver.Proofs.Decimal.Positional

/-!
# The shortest decimal reads back

The decimal that is written for a double lies in the interval of the numbers that read back as it
(`contains_shortest`). The search compares natural numbers, which are the ends of the interval with
the power of ten multiplied out; it finds something, since at the last of its powers the multiple
above the double is nearer to it than half the way to the next double.

The intervals of two doubles have no number in common (`Binary.IsCanonical.eq_of_contains`): one
ends where the other begins, or before, and where it does the doubles are not both even.
-/

namespace SketchSolver.Decimal

/-! ## Fractions -/

/-- The number that a fraction stands for. -/
def Ratio.value (r : Ratio) : ℚ :=
  r.num / r.den

/-- The number that a significand and an exponent stand for. -/
def Binary.value (b : Binary) : ℚ :=
  b.significand * 2 ^ b.exponent

/-- A power with an integer exponent is a quotient of two with natural ones, one of them zero. -/
theorem zpow_eq_toNat_div {a : ℚ} (ha : a ≠ 0) (k : ℤ) :
    a ^ k = a ^ k.toNat / a ^ (-k).toNat := by
  rw [← zpow_natCast, ← zpow_natCast, ← zpow_sub₀ ha]
  congr 1
  omega

/-- The fraction of a significand and an exponent stands for the same number. -/
theorem Binary.value_toRatio (b : Binary) : b.toRatio.value = b.value := by
  simp only [Ratio.value, toRatio, value, Nat.shiftLeft_eq, Nat.one_mul]
  rw [zpow_eq_toNat_div two_ne_zero]
  push_cast
  ring

/-- The fraction of a significand and an exponent has a denominator. -/
theorem Binary.den_toRatio_pos (b : Binary) : 0 < b.toRatio.den := by
  simp [toRatio, Nat.shiftLeft_eq]

/-- The numerator is positive if the significand is. -/
theorem Binary.num_toRatio_pos {b : Binary} (hb : 0 < b.significand) : 0 < b.toRatio.num := by
  simpa [toRatio, Nat.shiftLeft_eq] using hb

namespace Ratio
variable {r : Ratio}

/-- A fraction keeps a denominator when it is scaled. -/
theorem den_scaleDown_pos (hr : 0 < r.den) (k : ℤ) : 0 < (r.scaleDown k).den :=
  Nat.mul_pos hr (Nat.pow_pos (by decide))

/-- Scaling divides by the power of ten. -/
theorem value_scaleDown (r : Ratio) (k : ℤ) : (r.scaleDown k).value = r.value / 10 ^ k := by
  rw [zpow_eq_toNat_div (by norm_num)]
  simp only [value, scaleDown, powerOfTen, Nat.pow_eq]
  push_cast
  rw [div_div_div_eq]

/-- A natural number is below a fraction if its product with the denominator is below the
numerator. -/
theorem natCast_lt_value (hr : 0 < r.den) {d : Nat} : (d : ℚ) < r.value ↔ d * r.den < r.num := by
  rw [value, lt_div_iff₀ (by exact_mod_cast hr)]
  exact_mod_cast Iff.rfl

/-- A natural number is above a fraction if its product with the denominator is above the
numerator. -/
theorem value_lt_natCast (hr : 0 < r.den) {d : Nat} : r.value < d ↔ r.num < d * r.den := by
  rw [value, div_lt_iff₀ (by exact_mod_cast hr)]
  exact_mod_cast Iff.rfl

/-- A multiple of a power of ten is compared with a fraction by natural numbers. -/
theorem multiple_lt_value (hr : 0 < r.den) {d : Nat} {k : ℤ} :
    d * 10 ^ k < r.value ↔ d * (r.scaleDown k).den < (r.scaleDown k).num := by
  rw [← natCast_lt_value (den_scaleDown_pos hr k), value_scaleDown, lt_div_iff₀ (by positivity)]

/-- A multiple of a power of ten above a fraction is found by natural numbers. -/
theorem value_lt_multiple (hr : 0 < r.den) {d : Nat} {k : ℤ} :
    r.value < d * 10 ^ k ↔ (r.scaleDown k).num < d * (r.scaleDown k).den := by
  rw [← value_lt_natCast (den_scaleDown_pos hr k), value_scaleDown, div_lt_iff₀ (by positivity)]

/-- A multiple of a power of ten that is equal to a fraction is found by natural numbers. -/
theorem value_eq_multiple (hr : 0 < r.den) {d : Nat} {k : ℤ} :
    r.value = d * 10 ^ k ↔ (r.scaleDown k).num = d * (r.scaleDown k).den := by
  rw [le_antisymm_iff, ← not_lt, ← not_lt, multiple_lt_value hr, value_lt_multiple hr]
  omega

/-- A number of as many digits is at least the power of ten of one digit less. -/
theorem pow_digitCount_le {n : Nat} (hn : 0 < n) : 10 ^ (digitCount n - 1) ≤ n := by
  by_contra hlt
  have hone : digitCount n - 1 ≠ 0 := by
    intro h
    rw [h] at hlt
    omega
  have := (Nat.length_toDigits_le_iff (by decide) (by omega)).2 (not_le.1 hlt)
  simp only [digitCount] at *
  omega

/-- A number is below the power of ten of as many digits. -/
theorem lt_pow_digitCount (n : Nat) : n < 10 ^ digitCount n :=
  (Nat.length_toDigits_le_iff (by decide) Nat.length_toDigits_pos).1 le_rfl

/-- The magnitude is not too large: the power of ten below it is not above the fraction. -/
theorem zpow_magnitude_le (hnum : 0 < r.num) (hden : 0 < r.den) :
    (10 : ℚ) ^ (r.magnitude - 1) ≤ r.value := by
  have hpos : (0 : ℚ) < r.den := by exact_mod_cast hden
  rw [value, le_div_iff₀ hpos, magnitude]
  split
  · next hle =>
    have hquot := pow_digitCount_le (Nat.div_pos hle hden)
    have hcount : 0 < digitCount (r.num / r.den) := Nat.length_toDigits_pos
    rw [show (digitCount (r.num / r.den) - 1 : ℤ) = (digitCount (r.num / r.den) - 1 : ℕ) by omega,
      zpow_natCast]
    exact_mod_cast (Nat.le_div_iff_mul_le hden).1 hquot
  · have hquot := (Nat.div_lt_iff_lt_mul hnum).1 (lt_pow_digitCount ((r.den - 1) / r.num))
    have hle : r.den ≤ 10 ^ digitCount ((r.den - 1) / r.num) * r.num := by omega
    rw [sub_sub_cancel_left, zpow_neg, zpow_natCast, inv_mul_le_iff₀ (by positivity)]
    exact_mod_cast hle

end Ratio

/-! ## The numbers that read back -/

namespace Interval

/-- The lower end. -/
def lowEnd (i : Interval) : Ratio :=
  ⟨i.low, i.den⟩

/-- The upper end. -/
def highEnd (i : Interval) : Ratio :=
  ⟨i.high, i.den⟩

/-- The double. -/
def middle (i : Interval) : Ratio :=
  ⟨i.value, i.den⟩

/-- The number is in the interval. -/
structure Contains (i : Interval) (q : ℚ) : Prop where
  low : i.lowEnd.value < q ∨ i.closed = true ∧ i.lowEnd.value = q
  high : q < i.highEnd.value ∨ i.closed = true ∧ i.highEnd.value = q

/-- The interval has its ends on the two sides of its double. -/
structure IsProper (i : Interval) : Prop where
  den_pos : 0 < i.den
  low_lt : i.low < i.value
  lt_high : i.value < i.high

variable {i : Interval}

section
variable (hi : i.IsProper)
include hi

/-- The lower end of an interval is below its double. -/
theorem lowEnd_lt : i.lowEnd.value < i.middle.value :=
  div_lt_div_of_pos_right (by exact_mod_cast hi.low_lt) (by exact_mod_cast hi.den_pos)

/-- The upper end of an interval is above its double. -/
theorem lt_highEnd : i.middle.value < i.highEnd.value :=
  div_lt_div_of_pos_right (by exact_mod_cast hi.lt_high) (by exact_mod_cast hi.den_pos)

/-- The largest multiple of a power of ten that is not above the double. -/
theorem multiple_below (k : ℤ) :
    ((i.middle.scaleDown k).num / (i.middle.scaleDown k).den : ℕ) * (10 : ℚ) ^ k ≤
      i.middle.value := by
  rw [← not_lt, Ratio.value_lt_multiple hi.den_pos, not_lt]
  exact Nat.div_mul_le_self ..

/-- The multiple next to it is above the double. -/
theorem multiple_above (k : ℤ) :
    i.middle.value <
      ((i.middle.scaleDown k).num / (i.middle.scaleDown k).den + 1 : ℕ) * (10 : ℚ) ^ k := by
  rw [Ratio.value_lt_multiple hi.den_pos, Nat.add_one_mul]
  exact Nat.lt_div_mul_add (Ratio.den_scaleDown_pos hi.den_pos k)

end

/-- What is found is the multiple below the double, if it is above the lower end, or the one above
it, if it is below the upper end. -/
theorem multiple?_cases {k : ℤ} {d : Nat} (h : i.multiple? k = some d) :
    let middle := i.middle.scaleDown k
    (d = middle.num / middle.den ∧
      ((i.lowEnd.scaleDown k).num < d * middle.den ∨
        i.closed = true ∧ (i.lowEnd.scaleDown k).num = d * middle.den)) ∨
    (d = middle.num / middle.den + 1 ∧
      (d * middle.den < (i.highEnd.scaleDown k).num ∨
        i.closed = true ∧ (i.highEnd.scaleDown k).num = d * middle.den)) := by
  simp only [multiple?] at h
  split at h
  · next hup =>
    simp only [Bool.and_eq_true, Bool.or_eq_true, decide_eq_true_eq, beq_iff_eq] at hup
    obtain rfl := Option.some.inj h
    exact .inr ⟨rfl, hup.1.imp_right fun hend => ⟨hend.1, hend.2.symm⟩⟩
  · split at h
    · next hdown =>
      simp only [Bool.and_eq_true, Bool.or_eq_true, decide_eq_true_eq, beq_iff_eq] at hdown
      obtain rfl := Option.some.inj h
      exact .inl ⟨rfl, hdown.2⟩
    · cases h

/-- A multiple that is found is in the interval. -/
theorem contains_multiple (hi : i.IsProper) {k : ℤ} {d : Nat} (h : i.multiple? k = some d) :
    i.Contains (d * 10 ^ k) := by
  rcases multiple?_cases h with ⟨hd, hend⟩ | ⟨hd, hend⟩
  · have hbelow := multiple_below hi k
    rw [← hd] at hbelow
    refine ⟨?_, .inl (hbelow.trans_lt (lt_highEnd hi))⟩
    rw [Ratio.value_lt_multiple hi.den_pos, Ratio.value_eq_multiple hi.den_pos]
    exact hend
  · have habove := multiple_above hi k
    rw [← hd] at habove
    refine ⟨.inl ((lowEnd_lt hi).trans habove), ?_⟩
    rw [Ratio.multiple_lt_value hi.den_pos, Ratio.value_eq_multiple hi.den_pos]
    exact hend

/-- Something is found if what is a power of ten above the double is before the upper end. -/
theorem exists_multiple (hi : i.IsProper) {k : ℤ} (hk : i.middle.value + 10 ^ k < i.highEnd.value) :
    ∃ d, i.multiple? k = some d := by
  have hup : ((i.middle.scaleDown k).num / (i.middle.scaleDown k).den + 1) *
      (i.middle.scaleDown k).den < (i.highEnd.scaleDown k).num := by
    refine (Ratio.multiple_lt_value hi.den_pos).1 (lt_of_le_of_lt ?_ hk)
    have hbelow := multiple_below hi k
    push_cast at hbelow ⊢
    linarith
  simp only [multiple?]
  split
  · exact ⟨_, rfl⟩
  · next hnot =>
    split
    · exact ⟨_, rfl⟩
    · next hdown =>
      rw [Bool.not_eq_true] at hdown
      refine absurd ?_ hnot
      rw [hdown, Bool.and_eq_true, Bool.or_eq_true]
      exact ⟨.inl (decide_eq_true hup), rfl⟩

end Interval

/-! ## The interval of a double -/

namespace Binary
variable {b b' : Binary} {q : ℚ}

/-- The quarter of the distance to the next double, which is the unit in which the ends of an
interval are whole numbers. -/
def quarter (b : Binary) : ℚ :=
  2 ^ (b.exponent - 2)

/-- The distance from a double to the lower end of its interval, in quarters. -/
def below (b : Binary) : Nat :=
  if b.significand = hiddenBit ∧ -1074 < b.exponent then 1 else 2

/-- A quarter of a distance is positive. -/
theorem quarter_pos (b : Binary) : 0 < b.quarter :=
  zpow_pos two_pos _

/-- The fractions of an interval are whole numbers of quarters. -/
theorem value_quarters (b : Binary) (n : Nat) :
    Ratio.value ⟨n * (Binary.mk 1 (b.exponent - 2)).toRatio.num,
      (Binary.mk 1 (b.exponent - 2)).toRatio.den⟩ = n * b.quarter := by
  have hunit := value_toRatio (Binary.mk 1 (b.exponent - 2))
  rw [value, Nat.cast_one, one_mul] at hunit
  rw [quarter, ← hunit, Ratio.value, Ratio.value]
  push_cast
  rw [mul_div_assoc]

/-- The lower end of an interval, in quarters. -/
theorem lowEnd_around (b : Binary) :
    (Interval.around b).lowEnd.value = (4 * b.significand - b.below : ℕ) * b.quarter :=
  value_quarters b _

/-- The upper end is two quarters, half of the distance to the next double, above the double. -/
theorem highEnd_around (b : Binary) :
    (Interval.around b).highEnd.value = (4 * b.significand + 2 : ℕ) * b.quarter :=
  value_quarters b _

/-- The middle of an interval, in quarters. -/
theorem middle_around (b : Binary) :
    (Interval.around b).middle.value = (4 * b.significand : ℕ) * b.quarter :=
  value_quarters b _

/-- The number of a double, in quarters. -/
theorem value_eq_quarters (b : Binary) : b.value = (4 * b.significand : ℕ) * b.quarter := by
  rw [value, quarter, zpow_sub₀ two_ne_zero]
  push_cast
  ring

/-- The interval of a double that is not zero has its ends on the two sides of it. -/
theorem isProper_around (hb : 0 < b.significand) : (Interval.around b).IsProper where
  den_pos := den_toRatio_pos _
  low_lt := by
    refine Nat.mul_lt_mul_of_pos_right ?_ (num_toRatio_pos Nat.one_pos)
    split <;> omega
  lt_high := Nat.mul_lt_mul_of_pos_right (by omega) (num_toRatio_pos Nat.one_pos)

/-- Zero reads back as zero. -/
theorem contains_zero (hb : b.significand = 0) : (Interval.around b).Contains 0 where
  low := by
    right
    rw [lowEnd_around, hb]
    exact ⟨by simp [Interval.around, hb], by simp⟩
  high := by
    left
    rw [highEnd_around]
    have := b.quarter_pos
    positivity

/-- The last of the powers that are tried is below half of the distance to the next double. -/
theorem multiple_before_end (hpos : 0 < b.significand) (hlt : b.significand < 2 * hiddenBit) :
    (Interval.around b).middle.value + 10 ^ (b.toRatio.magnitude - 18) <
      (Interval.around b).highEnd.value := by
  have hmagnitude := Ratio.zpow_magnitude_le (num_toRatio_pos hpos) b.den_toRatio_pos
  have hpower : (10 : ℚ) ^ (b.toRatio.magnitude - 1) =
      10 ^ (b.toRatio.magnitude - 18) * 10 ^ 17 := by
    rw [← zpow_natCast, ← zpow_add₀ (by norm_num)]
    congr 1
    omega
  have hsignificand : (4 * b.significand : ℕ) * b.quarter ≤ 2 ^ 55 * b.quarter := by
    refine mul_le_mul_of_nonneg_right ?_ b.quarter_pos.le
    have : 4 * b.significand ≤ 2 ^ 55 := by
      unfold hiddenBit at hlt
      omega
    exact_mod_cast this
  have hquarter := b.quarter_pos
  rw [value_toRatio, value_eq_quarters, hpower] at hmagnitude
  rw [middle_around, highEnd_around]
  push_cast at hmagnitude hsignificand ⊢
  linarith

end Binary

/-- The decimal that is written for a double reads back as the double. -/
theorem contains_shortest {b : Binary} (hpos : 0 < b.significand)
    (hlt : b.significand < 2 * hiddenBit) :
    (Interval.around b).Contains (shortest b).value := by
  have hproper := Binary.isProper_around hpos
  obtain ⟨d, hd⟩ := Interval.exists_multiple hproper (Binary.multiple_before_end hpos hlt)
  unfold shortest
  dsimp only
  split
  · next found hfound =>
    obtain ⟨k, -, hk⟩ := List.exists_of_findSome?_eq_some hfound
    obtain ⟨d, hd, rfl⟩ := Option.map_eq_some_iff.1 hk
    exact Interval.contains_multiple hproper hd
  · next hnone =>
    have hlast := List.findSome?_eq_none_iff.1 hnone (b.toRatio.magnitude - (18 : ℕ))
      (List.mem_map_of_mem (List.mem_range.2 (by decide)))
    rw [Nat.cast_ofNat, hd] at hlast
    cases hlast

/-! ## Doubles apart -/

namespace Binary
variable {b b' : Binary} {q : ℚ}

/-- The significand and the exponent are those of a double: the significand has fifty-three bits, or
fewer at the least exponent. -/
structure IsCanonical (b : Binary) : Prop where
  significand_lt : b.significand < 2 * hiddenBit
  le_exponent : -1074 ≤ b.exponent
  hiddenBit_le : -1074 < b.exponent → hiddenBit ≤ b.significand

/-- Zero has the least exponent. -/
theorem IsCanonical.eq_zero (hb : b.IsCanonical) (hzero : b.significand = 0) :
    b = ⟨0, -1074⟩ := by
  obtain ⟨m, e⟩ := b
  obtain rfl : m = 0 := hzero
  have hleast : ¬ -1074 < e := fun he =>
    Nat.not_le.2 (by decide : 0 < hiddenBit) (hb.hiddenBit_le he)
  obtain rfl : e = -1074 := le_antisymm (not_lt.1 hleast) hb.le_exponent
  rfl

/-- The interval of a double ends where that of a larger one begins, or before. At one end of two
intervals one of the doubles is odd. -/
theorem IsCanonical.end_le (hb : b.IsCanonical) (hb' : b'.IsCanonical) {j : Nat}
    (hj : b'.exponent = b.exponent + j) (hlt : j = 0 → b.significand < b'.significand) :
    4 * b.significand + 2 ≤ (4 * b'.significand - b'.below) * 2 ^ j ∧
      (4 * b.significand + 2 = (4 * b'.significand - b'.below) * 2 ^ j →
        b.significand % 2 = 1 ∨ b'.significand % 2 = 1) := by
  obtain ⟨hsignificand, hexponent, -⟩ := hb
  obtain ⟨-, -, hhidden⟩ := hb'
  unfold below
  cases j with
  | zero =>
    have hless := hlt rfl
    rw [Nat.pow_zero, Nat.mul_one]
    split <;> omega
  | succ j =>
    -- The larger double is not subnormal, so its interval begins a quarter below a power of two or
    -- above it, and that of the other ends two quarters below.
    have hleast := hhidden (by omega)
    have hbegin : 4 * hiddenBit - 1 ≤ 4 * b'.significand -
        if b'.significand = hiddenBit ∧ -1074 < b'.exponent then 1 else 2 := by
      split <;> omega
    have hscaled := Nat.mul_le_mul hbegin (Nat.pow_le_pow_right two_pos (Nat.le_add_left 1 j))
    unfold hiddenBit at *
    omega

/-- Of two doubles that one number reads back as, none is smaller. -/
theorem IsCanonical.not_contains (hb : b.IsCanonical) (hb' : b'.IsCanonical) {j : Nat}
    (hj : b'.exponent = b.exponent + j) (hlt : j = 0 → b.significand < b'.significand)
    (hq : (Interval.around b).Contains q) : ¬ (Interval.around b').Contains q := by
  intro hq'
  obtain ⟨hle, hodd⟩ := hb.end_le hb' hj hlt
  have hquarter : b'.quarter = 2 ^ j * b.quarter := by
    rw [quarter, quarter, hj, ← zpow_natCast, ← zpow_add₀ two_ne_zero]
    congr 1
    omega
  have hends : (Interval.around b').lowEnd.value =
      ((4 * b'.significand - b'.below) * 2 ^ j : ℕ) * b.quarter := by
    rw [lowEnd_around, hquarter, ← mul_assoc]
    push_cast
    rfl
  have hhigh := hq.high
  have hlow := hq'.low
  rw [highEnd_around] at hhigh
  rw [hends] at hlow
  have hscaled := mul_le_mul_of_nonneg_right (Nat.cast_le (α := ℚ).2 hle) b.quarter_pos.le
  rcases hhigh with hhigh | ⟨hclosed, hhigh⟩
  · rcases hlow with hlow | ⟨_, hlow⟩ <;> linarith
  · rcases hlow with hlow | ⟨hclosed', hlow⟩
    · linarith
    · have heq := mul_right_cancel₀ b.quarter_pos.ne' (hhigh.trans hlow.symm)
      have heven : b.significand % 2 = 0 := of_decide_eq_true hclosed
      have heven' : b'.significand % 2 = 0 := of_decide_eq_true hclosed'
      have := hodd (by exact_mod_cast heq)
      omega

/-- A number reads back as one double only. -/
theorem IsCanonical.eq_of_contains (hb : b.IsCanonical) (hb' : b'.IsCanonical)
    (hq : (Interval.around b).Contains q) (hq' : (Interval.around b').Contains q) : b = b' := by
  obtain ⟨m, e⟩ := b
  obtain ⟨m', e'⟩ := b'
  rcases lt_trichotomy e e' with he | rfl | he
  · exact absurd hq' (hb.not_contains hb' (j := (e' - e).toNat) (by simp; omega) (by omega) hq)
  · rcases lt_trichotomy m m' with hm | rfl | hm
    · exact absurd hq' (hb.not_contains hb' (j := 0) (by simp) (fun _ => hm) hq)
    · rfl
    · exact absurd hq (hb'.not_contains hb (j := 0) (by simp) (fun _ => hm) hq')
  · exact absurd hq (hb'.not_contains hb (j := (e - e').toNat) (by simp; omega) (by omega) hq')

end Binary

end SketchSolver.Decimal
