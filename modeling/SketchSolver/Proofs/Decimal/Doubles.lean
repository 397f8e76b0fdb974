import Mathlib
import SketchSolver.Proofs.Decimal.Shortest

/-!
# The texts of doubles

The bits of a double are three fields, from which its sign and its magnitude are taken and which can
be recovered from these (`eq_of_ofFloat`). The text shows them both: a minus stands in front of it
or not, and what follows is the name of the infinity or a decimal that reads back as the magnitude
(`contains_decimal`). So every double has a text of its own (`text_injective`), the undefined one,
of which there is one, among them.
-/

namespace SketchSolver.Decimal

variable {x y : Float}

/-! ## Fields -/

/-- The sign bit. -/
def signField (x : Float) : Nat :=
  x.toBits.toNat / 2 ^ 63

/-- The bits of the exponent. -/
def exponentField (x : Float) : Nat :=
  x.toBits.toNat / 2 ^ 52 % 2 ^ 11

/-- The bits of the significand, without the hidden one. -/
def fractionField (x : Float) : Nat :=
  x.toBits.toNat % 2 ^ 52

/-- The stored bits are fewer than a significand has. -/
theorem fractionField_lt (x : Float) : fractionField x < hiddenBit :=
  Nat.mod_lt _ (by decide)

/-- A double is told by its three fields. -/
theorem eq_of_fields (hsign : signField x = signField y)
    (hexponent : exponentField x = exponentField y)
    (hfraction : fractionField x = fractionField y) : x = y := by
  refine Float.toBits_inj.1 (UInt64.toNat_inj.1 ?_)
  unfold signField at hsign
  unfold exponentField at hexponent
  unfold fractionField at hfraction
  omega

/-- A double is negative if its sign bit is set. -/
theorem isNegative_eq (x : Float) : isNegative x = decide (signField x = 1) := by
  rw [isNegative, signField, Bool.eq_iff_iff, beq_iff_eq, decide_eq_true_eq, ← UInt64.toNat_inj,
    UInt64.toNat_shiftRight, Nat.shiftRight_eq_div_pow]
  rfl

/-- The magnitude of a double, read from its fields by division. -/
theorem ofFloat_eq (x : Float) :
    Binary.ofFloat x =
      if exponentField x = 0 then ⟨fractionField x, -1074⟩
      else ⟨hiddenBit + fractionField x, (exponentField x : ℤ) - 1075⟩ := by
  have hexponent : (x.toBits >>> 52 &&& 0x7FF).toNat = exponentField x := by
    rw [UInt64.toNat_and, UInt64.toNat_shiftRight, Nat.shiftRight_eq_div_pow]
    exact Nat.and_two_pow_sub_one_eq_mod _ 11
  have hfraction : (x.toBits &&& 0xFFFFFFFFFFFFF).toNat = fractionField x := by
    rw [UInt64.toNat_and]
    exact Nat.and_two_pow_sub_one_eq_mod _ 52
  rw [Binary.ofFloat]
  simp only [hexponent, hfraction]

/-- The magnitude of a double has the significand and the exponent of one. -/
theorem isCanonical_ofFloat (x : Float) : (Binary.ofFloat x).IsCanonical := by
  have hfraction := fractionField_lt x
  rw [ofFloat_eq]
  split
  · exact ⟨hfraction.trans (by decide), le_rfl, fun h => absurd h (lt_irrefl _)⟩
  · next hexponent =>
    have hlt : hiddenBit + fractionField x < 2 * hiddenBit := by
      rw [two_mul]
      exact Nat.add_lt_add_left hfraction hiddenBit
    have hle : -1074 ≤ (exponentField x : ℤ) - 1075 := by
      omega
    exact ⟨hlt, hle, fun _ => Nat.le_add_right ..⟩

/-- A double is told by its sign and its magnitude. -/
theorem eq_of_ofFloat (hsign : isNegative x = isNegative y)
    (h : Binary.ofFloat x = Binary.ofFloat y) : x = y := by
  have hx := x.toBits.toNat_lt
  have hy := y.toBits.toNat_lt
  have hfraction := fractionField_lt x
  have hfraction' := fractionField_lt y
  rw [isNegative_eq, isNegative_eq, decide_eq_decide] at hsign
  rw [ofFloat_eq, ofFloat_eq] at h
  -- A significand without its hidden bit is below one that has it.
  have hfields : exponentField x = exponentField y ∧ fractionField x = fractionField y := by
    split at h <;> split at h <;> simp at h <;> omega
  refine eq_of_fields ?_ hfields.1 hfields.2
  unfold signField at *
  omega

/-! ## Special doubles -/

/-- There are two zeros, of one magnitude and of different signs. -/
theorem zeros_spec : (Binary.ofFloat 0.0 = ⟨0, -1074⟩ ∧ isNegative 0.0 = false) ∧
    (Binary.ofFloat (-0.0) = ⟨0, -1074⟩ ∧ isNegative (-0.0) = true) ∧
    (0.0 : Float) = 0 ∧ (0 : Float) ≠ -0 ∧ (0 : Float) ≠ Float.nan ∧ (-0 : Float) ≠ Float.nan := by
  decide +kernel

/-- A double that is equal to zero is one of the two zeros. -/
theorem beq_zero_iff : (x == 0.0) = true ↔ x = 0.0 ∨ x = -0.0 := by
  obtain ⟨_, _, hliteral, hne, hnum, hnum'⟩ := zeros_spec
  rw [Float.beq_iff_ne_nan_and_eq, hliteral]
  constructor
  · rintro ⟨-, -, hx | ⟨-, hzeros⟩ | ⟨hx, -⟩⟩
    · exact .inl hx
    · exact absurd hzeros hne
    · exact .inr hx
  · rintro (rfl | rfl)
    · exact ⟨hnum, hnum, .inl rfl⟩
    · exact ⟨hnum', hnum, .inr (.inr ⟨rfl, rfl⟩)⟩

/-- The doubles that are equal to zero are those of which the magnitude is zero. -/
theorem ofFloat_eq_zero_iff : Binary.ofFloat x = ⟨0, -1074⟩ ↔ (x == 0.0) = true := by
  obtain ⟨⟨hzero, hpositive⟩, ⟨hminus, hnegative⟩, _⟩ := zeros_spec
  rw [beq_zero_iff]
  constructor
  · intro hx
    cases hsign : isNegative x with
    | false => exact .inl (eq_of_ofFloat (hsign.trans hpositive.symm) (hx.trans hzero.symm))
    | true => exact .inr (eq_of_ofFloat (hsign.trans hnegative.symm) (hx.trans hminus.symm))
  · rintro (rfl | rfl)
    · exact hzero
    · exact hminus

section
open Float.Model.UnpackedFloat

/-- The exponent of the logical model of doubles is the exponent field. -/
theorem toNat_unpackExponent (x : Float) :
    (@unpackExponent .binary64 x.toBits.toBitVec).toNat = exponentField x := by
  rw [unpackExponent_def, BitVec.extractLsb'_toNat, Nat.shiftRight_eq_div_pow]
  rfl

/-- The mantissa of the logical model of doubles is the fraction field. -/
theorem toNat_unpackMantissa (x : Float) :
    (@unpackMantissa .binary64 x.toBits.toBitVec).toNat = fractionField x := by
  rw [unpackMantissa_def, BitVec.extractLsb'_toNat, Nat.shiftRight_zero]
  rfl

/-- The magnitude that is taken from an infinity is above that of any finite double. -/
theorem ofFloat_of_isInf (h : x.isInf = true) : Binary.ofFloat x = ⟨hiddenBit, 972⟩ := by
  have hfields : exponentField x = 2047 ∧ fractionField x = 0 := by
    change (unpack .binary64 x.toBits.toBitVec).isInf = true at h
    rw [← toNat_unpackExponent, ← toNat_unpackMantissa]
    unfold unpack at h
    simp only at h
    split at h
    · next hexponent =>
      split at h
      · next hmantissa =>
        rw [hexponent, hmantissa]
        decide
      · cases h
    · split at h
      · split at h <;> cases h
      · cases h
  rw [ofFloat_eq, hfields.1, hfields.2]
  rfl

end

/-! ## Texts -/

/-- The decimal that is written for a finite double. -/
def decimal (x : Float) : Digits :=
  if x == 0.0 then ⟨0, 0⟩ else shortest (.ofFloat x)

/-- The text of the magnitude of a double. -/
def unsigned (x : Float) : List Char :=
  if x.isInf then ['i', 'n', 'f'] else (decimal x).positional

/-- An undefined double has no sign in its text. -/
theorem text_of_isNaN (hx : x.isNaN = true) : text x = ['N', 'a', 'N'] :=
  if_pos hx

/-- The text of any other double is its sign, if it is negative, and that of its magnitude. -/
theorem text_of_not_isNaN (hx : x.isNaN = false) :
    text x = (if isNegative x then ['-'] else []) ++ unsigned x := by
  rw [text, hx, if_neg Bool.false_ne_true, unsigned, decimal]
  simp only
  split
  · rfl
  · split <;> rfl

/-- The decimal that is written for a finite double reads back as its magnitude. -/
theorem contains_decimal (x : Float) :
    (Interval.around (Binary.ofFloat x)).Contains (decimal x).value := by
  rw [decimal]
  split
  · next hzero =>
    have hvalue : Digits.value ⟨0, 0⟩ = 0 := zero_mul _
    rw [hvalue]
    exact Binary.contains_zero (by rw [ofFloat_eq_zero_iff.2 hzero])
  · next hzero =>
    have hpos : 0 < (Binary.ofFloat x).significand :=
      Nat.pos_of_ne_zero fun h => hzero (ofFloat_eq_zero_iff.1 ((isCanonical_ofFloat x).eq_zero h))
    exact contains_shortest hpos (isCanonical_ofFloat x).significand_lt

/-- No decimal has the text of the infinity. -/
theorem positional_ne_inf (d : Digits) : d.positional ≠ ['i', 'n', 'f'] := by
  obtain ⟨c, hc, hdigit⟩ := d.head_positional
  intro h
  rw [h] at hc
  obtain rfl := Option.some.inj hc
  cases hdigit

/-- Magnitudes are told by their texts. -/
theorem ofFloat_of_unsigned (h : unsigned x = unsigned y) :
    Binary.ofFloat x = Binary.ofFloat y := by
  rw [unsigned, unsigned] at h
  split at h
  · next hx =>
    split at h
    · next hy => rw [ofFloat_of_isInf hx, ofFloat_of_isInf hy]
    · exact absurd h.symm (positional_ne_inf _)
  · split at h
    · exact absurd h (positional_ne_inf _)
    · have hvalue := contains_decimal x
      rw [Digits.value_eq_of_positional h] at hvalue
      exact (isCanonical_ofFloat x).eq_of_contains (isCanonical_ofFloat y) hvalue
        (contains_decimal y)

/-- The text of a magnitude begins with a digit, or as that of the infinity. -/
theorem head_unsigned (x : Float) : ∃ c ∈ (unsigned x).head?, c.isDigit = true ∨ c = 'i' := by
  rw [unsigned]
  split
  · exact ⟨'i', rfl, .inr rfl⟩
  · obtain ⟨c, hc, hdigit⟩ := (decimal x).head_positional
    exact ⟨c, hc, .inl hdigit⟩

/-- The text of a double that is not undefined begins with a minus, or as that of its magnitude. -/
theorem head_text_of_not_isNaN (hx : x.isNaN = false) :
    ∃ c ∈ (text x).head?, c = '-' ∧ isNegative x = true ∨
      (c.isDigit = true ∨ c = 'i') ∧ isNegative x = false := by
  rw [text_of_not_isNaN hx]
  cases isNegative x with
  | true => exact ⟨'-', rfl, .inl ⟨rfl, rfl⟩⟩
  | false =>
    obtain ⟨c, hc, hkind⟩ := head_unsigned x
    exact ⟨c, hc, .inr ⟨hkind, rfl⟩⟩

/-- The text of a double begins with a digit, a minus, or the letter of what has no decimal. -/
theorem head_text (x : Float) :
    ∃ c ∈ (text x).head?, c.isDigit = true ∨ c = '-' ∨ c = 'N' ∨ c = 'i' := by
  cases hx : x.isNaN with
  | true => exact ⟨'N', by rw [text_of_isNaN hx]; rfl, .inr (.inr (.inl rfl))⟩
  | false =>
    obtain ⟨c, hc, ⟨rfl, -⟩ | ⟨hdigit | rfl, -⟩⟩ := head_text_of_not_isNaN hx
    · exact ⟨'-', hc, .inr (.inl rfl)⟩
    · exact ⟨c, hc, .inl hdigit⟩
    · exact ⟨'i', hc, .inr (.inr (.inr rfl))⟩

/-- An undefined double does not share its text with a defined one. -/
theorem isNaN_of_text (h : text x = text y) (hx : x.isNaN = true) : y.isNaN = true := by
  by_contra hy
  obtain ⟨c, hc, hkind⟩ := head_text_of_not_isNaN (Bool.not_eq_true _ ▸ hy)
  rw [← h, text_of_isNaN hx] at hc
  obtain rfl := Option.some.inj hc
  rcases hkind with ⟨hminus, -⟩ | ⟨hdigit | hinf, -⟩
  · cases hminus
  · cases hdigit
  · cases hinf

/-- A double that is not undefined has the sign that is seen at the beginning of its text. -/
theorem isNegative_of_text (hx : x.isNaN = false) (hy : y.isNaN = false) (h : text x = text y) :
    isNegative x = isNegative y := by
  obtain ⟨c, hc, hkind⟩ := head_text_of_not_isNaN hx
  obtain ⟨d, hd, hkind'⟩ := head_text_of_not_isNaN hy
  rw [h] at hc
  obtain rfl := Option.some.inj (hc.symm.trans hd)
  rcases hkind with ⟨rfl, hsign⟩ | ⟨hword, hsign⟩
  · rcases hkind' with ⟨_, hsign'⟩ | ⟨hdigit | hinf, _⟩
    · rw [hsign, hsign']
    · cases hdigit
    · cases hinf
  · rcases hkind' with ⟨rfl, _⟩ | ⟨_, hsign'⟩
    · rcases hword with hdigit | hinf
      · cases hdigit
      · cases hinf
    · rw [hsign, hsign']

/-- Doubles that differ have texts that differ. -/
theorem text_injective : Function.Injective text := by
  intro x y h
  cases hx : x.isNaN with
  | true =>
    have hy := isNaN_of_text h hx
    rw [Float.isNaN_eq_decide_eq_nan, decide_eq_true_eq] at hx hy
    rw [hx, hy]
  | false =>
    have hy : y.isNaN = false := by
      rw [← Bool.not_eq_true]
      exact fun hy => Bool.false_ne_true (hx.symm.trans (isNaN_of_text h.symm hy))
    have hsign := isNegative_of_text hx hy h
    rw [text_of_not_isNaN hx, text_of_not_isNaN hy, hsign] at h
    exact eq_of_ofFloat hsign (ofFloat_of_unsigned (List.append_cancel_left h))

/-- The text of a double consists of digits, signs and the letters of what has no decimal. -/
theorem isDigit_or_of_mem_text {c : Char} (hc : c ∈ text x) :
    c.isDigit = true ∨ c ∈ ['-', '.', 'N', 'a', 'i', 'n', 'f'] := by
  cases hx : x.isNaN with
  | true =>
    rw [text_of_isNaN hx] at hc
    exact .inr ((by decide : ['N', 'a', 'N'] ⊆ ['-', '.', 'N', 'a', 'i', 'n', 'f']) hc)
  | false =>
    rw [text_of_not_isNaN hx, List.mem_append, unsigned] at hc
    rcases hc with hsign | hunsigned
    · split at hsign
      · obtain rfl := List.mem_singleton.1 hsign
        exact .inr (by decide)
      · cases hsign
    · split at hunsigned
      · exact .inr ((by decide : ['i', 'n', 'f'] ⊆ ['-', '.', 'N', 'a', 'i', 'n', 'f']) hunsigned)
      · rcases Digits.isDigit_or_of_mem_positional hunsigned with hdigit | rfl
        · exact .inl hdigit
        · exact .inr (by decide)

end SketchSolver.Decimal
