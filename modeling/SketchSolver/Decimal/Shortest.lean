import SketchSolver.Decimal.Binary

/-!
# The shortest decimal of a double

The text of a double is the shortest decimal that reads back as the same double; of several, the
nearest one, and of two equally near ones the larger in magnitude. It is written positionally,
without an exponent, however long it becomes.

The numbers that read back as a double are those of an interval around it, which ends halfway to
its neighbours and has its ends if the significand is even. A decimal has as few digits as can be
if it is a multiple of the largest possible power of ten, so the powers are tried from above: if any
multiple of a power lies in the interval, one of the two next to the double does.
-/

namespace SketchSolver.Decimal

/-- A decimal number `digits * 10 ^ exponent`. -/
structure Digits where
  digits : Nat
  exponent : Int
deriving DecidableEq, Repr

/-- Four times the magnitude of a double, and of the ends of the interval of what reads back as it,
as fractions of one denominator. -/
structure Interval where
  low : Nat
  value : Nat
  high : Nat
  den : Nat
  /-- The ends belong to the interval. -/
  closed : Bool
deriving DecidableEq, Repr

/-- The interval of a positive double. The neighbour below a power of two is nearer than the one
above, unless all are equally spaced there. -/
def Interval.around (b : Binary) : Interval :=
  let quarter : Ratio := (Binary.mk 1 (b.exponent - 2)).toRatio
  let below := if b.significand = hiddenBit ∧ -1074 < b.exponent then 1 else 2
  { low := (4 * b.significand - below) * quarter.num
    value := 4 * b.significand * quarter.num
    high := (4 * b.significand + 2) * quarter.num
    den := quarter.den
    closed := b.significand % 2 = 0 }

/-- The multiple of `10 ^ k` in the interval that is nearest to the double, among the two next to
it. -/
def Interval.multiple? (i : Interval) (k : Int) : Option Nat :=
  let value := Ratio.scaleDown ⟨i.value, i.den⟩ k
  let scale := powerOfTen (-k).toNat
  let low := i.low * scale
  let high := i.high * scale
  let down := value.num / value.den
  let up := down + 1
  let rest := value.num % value.den
  let hasDown :=
    0 < down && (low < down * value.den || i.closed && low == down * value.den)
  let hasUp := up * value.den < high || i.closed && up * value.den == high
  if hasUp && (!hasDown || value.den ≤ 2 * rest) then some up
  else if hasDown then some down
  else none

/-- The shortest decimal of a positive double. Seventeen digits are always enough, and one place
above the first of them is tried as well. -/
def shortest (b : Binary) : Digits :=
  let interval := Interval.around b
  let top := b.toRatio.magnitude
  let powers := (List.range 19).map fun (n : Nat) => top - (n : Int)
  match powers.findSome? fun k => (interval.multiple? k).map fun d => (⟨d, k⟩ : Digits) with
  | some d => d
  | none => ⟨b.significand, b.exponent⟩

/-- A decimal in positional notation. -/
def Digits.positional (d : Digits) : List Char :=
  let digits := Nat.toDigits 10 d.digits
  let places := (-d.exponent).toNat
  if places = 0 then digits ++ List.replicate d.exponent.toNat '0'
  else if places < digits.length then
    let whole := digits.length - places
    digits.take whole ++ '.' :: digits.drop whole
  else '0' :: '.' :: (List.replicate (places - digits.length) '0' ++ digits)

/-- The text of a double. -/
def text (x : Float) : List Char :=
  if x.isNaN then ['N', 'a', 'N']
  else
    let sign := if isNegative x then ['-'] else []
    if x.isInf then sign ++ ['i', 'n', 'f']
    else if x == 0.0 then sign ++ ['0']
    else sign ++ (shortest (.ofFloat x)).positional

end SketchSolver.Decimal
