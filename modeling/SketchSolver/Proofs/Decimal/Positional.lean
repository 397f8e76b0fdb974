import Mathlib.Algebra.Order.Field.Rat
import Mathlib.Data.List.TakeWhile
import SketchSolver.Decimal.Shortest

/-!
# Reading decimals

A decimal in positional notation is read as the number that all its digits make, without the point,
divided by ten for every digit behind the point (`readPositional`). What is read is the number that
was written (`readPositional_positional`), so numbers that differ have texts that differ.
-/

namespace SketchSolver.Decimal

/-- The number that a decimal stands for. -/
def Digits.value (d : Digits) : ℚ :=
  d.digits * 10 ^ d.exponent

/-- The number that a text in positional notation stands for. -/
def readPositional (text : List Char) : ℚ :=
  let whole := text.takeWhile (· != '.')
  let fraction := (text.dropWhile (· != '.')).drop 1
  Nat.ofDigitChars 10 (whole ++ fraction) 0 / 10 ^ fraction.length

/-- Zeros in front of the digits of a number, or none, leave the number. -/
theorem ofDigitChars_zeros_append (k n : Nat) :
    Nat.ofDigitChars 10 (List.replicate k '0' ++ Nat.toDigits 10 n) 0 = n := by
  rw [Nat.ofDigitChars_append, Nat.ofDigitChars_replicate_zero, Nat.mul_zero,
    Nat.ofDigitChars_ten_toDigits]

namespace Digits

/-! ## The shape of a text -/

/-- A text in positional notation is that of the digits and zeros behind them, or has a point among
digits that have zeros in front of them, or none. -/
theorem positional_shape (d : Digits) :
    (∃ k : Nat, d.exponent = k ∧
      d.positional = Nat.toDigits 10 d.digits ++ List.replicate k '0') ∨
    ∃ (v w : List Char) (k : Nat), v ≠ [] ∧ d.exponent = -(w.length : ℤ) ∧
      v ++ w = List.replicate k '0' ++ Nat.toDigits 10 d.digits ∧
      d.positional = v ++ '.' :: w := by
  unfold positional
  simp only
  have hpos : 0 < (Nat.toDigits 10 d.digits).length := Nat.length_toDigits_pos
  generalize Nat.toDigits 10 d.digits = digits at hpos
  split
  · next hplaces => exact .inl ⟨d.exponent.toNat, by omega, rfl⟩
  · next hplaces =>
    right
    split
    · next hlt =>
      refine ⟨digits.take (digits.length - (-d.exponent).toNat), digits.drop _, 0, ?_, ?_,
        List.take_append_drop .., rfl⟩
      · rw [Ne, List.take_eq_nil_iff]
        rintro (h | h)
        · omega
        · rw [h] at hpos
          cases hpos
      · rw [List.length_drop]
        omega
    · refine ⟨['0'], _, (-d.exponent).toNat - digits.length + 1, nofun, ?_, ?_, rfl⟩
      · rw [List.length_append, List.length_replicate]
        omega
      · rw [List.replicate_succ]
        rfl

/-- Zeros and the digits of a number are digits. -/
theorem isDigit_of_mem {n k : Nat} {c : Char}
    (hc : c ∈ List.replicate k '0' ∨ c ∈ Nat.toDigits 10 n) : c.isDigit = true := by
  rcases hc with hc | hc
  · obtain rfl := List.eq_of_mem_replicate hc
    rfl
  · exact Nat.isDigit_of_mem_toDigits (by decide) (by decide) hc

/-- A text in positional notation consists of digits and points. -/
theorem isDigit_or_of_mem_positional {d : Digits} {c : Char} (hc : c ∈ d.positional) :
    c.isDigit = true ∨ c = '.' := by
  rcases d.positional_shape with ⟨k, _, hd⟩ | ⟨v, w, k, _, _, hvw, hd⟩
  · rw [hd] at hc
    exact .inl (isDigit_of_mem (List.mem_append.1 hc).symm)
  · rw [hd, List.mem_append, List.mem_cons, or_left_comm, ← List.mem_append, hvw] at hc
    exact hc.symm.imp_left fun h => isDigit_of_mem (List.mem_append.1 h)

/-- A text in positional notation begins with a digit. -/
theorem head_positional (d : Digits) : ∃ c ∈ d.positional.head?, c.isDigit = true := by
  rcases d.positional_shape with ⟨k, _, hd⟩ | ⟨v, w, k, hv, _, hvw, hd⟩
  · obtain ⟨c, v, hdigits⟩ := List.exists_cons_of_ne_nil (Nat.toDigits_ne_nil (n := d.digits))
    have hc : c ∈ Nat.toDigits 10 d.digits := by
      rw [hdigits]
      exact List.mem_cons_self ..
    exact ⟨c, by rw [hd, hdigits]; rfl, isDigit_of_mem (k := 0) (.inr hc)⟩
  · obtain ⟨c, v, rfl⟩ := List.exists_cons_of_ne_nil hv
    have hc : c ∈ c :: v ++ w := List.mem_cons_self ..
    rw [hvw] at hc
    exact ⟨c, by rw [hd]; rfl, isDigit_of_mem (List.mem_append.1 hc)⟩

end Digits

/-! ## Reading -/

section
variable {v w : List Char}

/-- A digit is no point. -/
theorem ne_point_of_isDigit (hv : ∀ c ∈ v, c.isDigit = true) :
    ∀ c ∈ v, (c != '.') = true := by
  intro c hc
  rw [bne_iff_ne]
  rintro rfl
  cases hv _ hc

/-- A text without a point is read as the number its digits make. -/
theorem readPositional_whole (hv : ∀ c ∈ v, c.isDigit = true) :
    readPositional v = Nat.ofDigitChars 10 v 0 := by
  have htake := List.takeWhile_eq_self_iff.2 (ne_point_of_isDigit hv)
  have hdrop := List.dropWhile_eq_nil_iff.2 (ne_point_of_isDigit hv)
  rw [readPositional, htake, hdrop]
  simp

/-- A text with a point is read as the number all digits make, less the places behind the point. -/
theorem readPositional_point (hv : ∀ c ∈ v, c.isDigit = true) :
    readPositional (v ++ '.' :: w) = Nat.ofDigitChars 10 (v ++ w) 0 / 10 ^ w.length := by
  rw [readPositional, List.takeWhile_append_of_pos (ne_point_of_isDigit hv),
    List.dropWhile_append_of_pos (ne_point_of_isDigit hv)]
  simp

end

namespace Digits

/-- A decimal in positional notation is read as the number that it stands for. -/
theorem readPositional_positional (d : Digits) : readPositional d.positional = d.value := by
  rcases d.positional_shape with ⟨k, hk, hd⟩ | ⟨v, w, k, _, hexponent, hvw, hd⟩
  · have hdigits : ∀ c ∈ Nat.toDigits 10 d.digits ++ List.replicate k '0', c.isDigit = true :=
      fun c hc => isDigit_of_mem (List.mem_append.1 hc).symm
    rw [hd, readPositional_whole hdigits, Nat.ofDigitChars_append,
      Nat.ofDigitChars_replicate_zero, Nat.ofDigitChars_ten_toDigits, value, hk, zpow_natCast]
    push_cast
    exact mul_comm ..
  · have hdigits : ∀ c ∈ v, c.isDigit = true := by
      intro c hc
      have hmem := List.mem_append_left w hc
      rw [hvw] at hmem
      exact isDigit_of_mem (List.mem_append.1 hmem)
    rw [hd, readPositional_point hdigits, hvw, ofDigitChars_zeros_append, value, hexponent,
      zpow_neg, zpow_natCast, div_eq_mul_inv]

/-- Decimals that stand for different numbers have different texts. -/
theorem value_eq_of_positional {d d' : Digits} (h : d.positional = d'.positional) :
    d.value = d'.value := by
  rw [← readPositional_positional, h, readPositional_positional]

end Digits

end SketchSolver.Decimal
