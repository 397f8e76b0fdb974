/-!
# Doubles as exact numbers

A finite double is `± significand * 2 ^ exponent`. The text of a double is computed from these
natural numbers, so nothing is rounded but what is meant to be.
-/

namespace SketchSolver.Decimal

/-- The number `significand * 2 ^ exponent`. -/
structure Binary where
  significand : Nat
  exponent : Int
deriving DecidableEq, Repr

/-- The significand of a power of two, which is the least one of a double that is not subnormal: the
bit above the fifty-two that are stored. -/
def hiddenBit : Nat := 0x10000000000000

/-- The magnitude of a finite double. -/
def Binary.ofFloat (x : Float) : Binary :=
  let biased := (x.toBits >>> 52 &&& 0x7FF).toNat
  let fraction := (x.toBits &&& 0xFFFFFFFFFFFFF).toNat
  if biased = 0 then ⟨fraction, -1074⟩ else ⟨hiddenBit + fraction, (biased : Int) - 1075⟩

/-- The double has its sign bit set. -/
def isNegative (x : Float) : Bool :=
  x.toBits >>> 63 == 1

/-- A fraction of natural numbers. -/
structure Ratio where
  num : Nat
  den : Nat
deriving DecidableEq, Repr

/-- The number as a fraction of it and a power of two. -/
def Binary.toRatio (b : Binary) : Ratio :=
  ⟨b.significand <<< b.exponent.toNat, 1 <<< (-b.exponent).toNat⟩

/-- A power of ten. -/
def powerOfTen (k : Nat) : Nat :=
  Nat.pow 10 k

/-- The fraction divided by `10 ^ k`. -/
def Ratio.scaleDown (r : Ratio) (k : Int) : Ratio :=
  ⟨r.num * powerOfTen (-k).toNat, r.den * powerOfTen k.toNat⟩

/-- The nearest integer to a fraction, the even one of two. -/
def Ratio.round (r : Ratio) : Nat :=
  let floor := r.num / r.den
  let rest := 2 * (r.num % r.den)
  if rest < r.den then floor
  else if r.den < rest then floor + 1
  else if floor % 2 = 0 then floor else floor + 1

/-- The number of decimal digits of a natural number, one for zero. -/
def digitCount (n : Nat) : Nat :=
  (Nat.toDigits 10 n).length

/-- The least `k` such that a positive fraction is below `10 ^ k`. -/
def Ratio.magnitude (r : Ratio) : Int :=
  if r.den ≤ r.num then digitCount (r.num / r.den)
  else 1 - (digitCount ((r.den - 1) / r.num) : Int)

end SketchSolver.Decimal
