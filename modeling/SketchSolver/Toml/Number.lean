import SketchSolver.Toml.Value

/-!
# Numbers, truth values and dates

A value that is neither quoted nor bracketed is a run of characters with one meaning at most:
a truth value, an integer in one of four bases, a number with a point or an exponent, or a date.
Each reader below takes the whole run.
-/

namespace SketchSolver.Toml

/-- The value of a character as a digit. -/
def digitValue (c : Char) : Nat :=
  if c.isDigit then c.toNat - '0'.toNat
  else if 'a' ≤ c && c ≤ 'f' then c.toNat - 'a'.toNat + 10
  else if 'A' ≤ c && c ≤ 'F' then c.toNat - 'A'.toNat + 10
  else 16

/-- The number written by digits of a base. -/
def numeral (base : Nat) (digits : List Char) : Nat :=
  digits.foldl (fun n c => base * n + digitValue c) 0

/-- The digits of a base that the text consists of, without the underscores between them. There is
one digit at least, and every underscore stands between two. -/
def groupedDigits? (base : Nat) : List Char → Option (List Char)
  | [] => none
  | [c] => if digitValue c < base then some [c] else none
  | c :: '_' :: rest =>
    if digitValue c < base then (groupedDigits? base rest).map (c :: ·) else none
  | c :: rest =>
    if digitValue c < base then (groupedDigits? base rest).map (c :: ·) else none

/-- A sign in front of a text, if there is one; true for a minus. -/
def splitSign : List Char → Bool × List Char
  | '-' :: rest => (true, rest)
  | '+' :: rest => (false, rest)
  | text => (false, text)

/-- The digits of a decimal whole number, which has no zero in front. -/
def wholeDigits? (text : List Char) : Option (List Char) :=
  match groupedDigits? 10 text with
  | some ('0' :: _ :: _) => none
  | digits => digits

/-- An integer. It fits into 128 bits, with a sign or without. -/
def integer? (text : List Char) : Option Int := do
  let n : Int ←
    match text with
    | '0' :: 'x' :: rest => (groupedDigits? 16 rest).map fun ds => (numeral 16 ds : Int)
    | '0' :: 'o' :: rest => (groupedDigits? 8 rest).map fun ds => (numeral 8 ds : Int)
    | '0' :: 'b' :: rest => (groupedDigits? 2 rest).map fun ds => (numeral 2 ds : Int)
    | _ =>
      let (negative, rest) := splitSign text
      (wholeDigits? rest).map fun ds =>
        if negative then -(numeral 10 ds : Int) else (numeral 10 ds : Int)
  let bound := if n < 0 then Nat.pow 2 127 else Nat.pow 2 128 - 1
  if n.natAbs ≤ bound then some n else none

/-- The double nearest to `digits * 10 ^ exponent`, if it is not beyond all doubles. Exponents far
outside their range are not worked out. -/
def nearestDouble? (digits : List Char) (exponent : Int) : Option Float :=
  let n := numeral 10 digits
  let magnitude := (digits.length : Int) + exponent
  if n = 0 || magnitude < -400 then some 0.0
  else if 1000 < exponent then none
  else
    let x := Float.ofScientific n (exponent < 0) exponent.natAbs
    if x.isInf then none else some x

/-- The exponent of a number, behind the letter; zero if there is none. -/
def exponent? : List Char → Option Int
  | [] => some 0
  | e :: rest =>
    if e == 'e' || e == 'E' then
      let (negative, rest) := splitSign rest
      (groupedDigits? 10 rest).map fun ds =>
        if negative then -(numeral 10 ds : Int) else (numeral 10 ds : Int)
    else none

/-- The double nearest to a number with a point or an exponent, without its sign. -/
def magnitude? (text : List Char) : Option Float := do
  let isMark := fun c => c == 'e' || c == 'E'
  let mantissa := text.takeWhile (!isMark ·)
  let exponent ← exponent? (text.dropWhile (!isMark ·))
  let whole ← wholeDigits? (mantissa.takeWhile (· != '.'))
  match mantissa.dropWhile (· != '.') with
  | [] => if text.any isMark then nearestDouble? whole exponent else none
  | _ :: rest =>
    let fraction ← groupedDigits? 10 rest
    nearestDouble? (whole ++ fraction) (exponent - (fraction.length : Int))

/-- A number with a point or an exponent, an infinity, or no number at all. -/
def float? (text : List Char) : Option Float :=
  let (negative, rest) := splitSign text
  let magnitude :=
    if rest == ['i', 'n', 'f'] then some (1.0 / 0.0)
    else if rest == ['n', 'a', 'n'] then some (0.0 / 0.0)
    else magnitude? rest
  magnitude.map fun x => if negative then -x else x

/-! ## Dates and times -/

/-- A decimal number of exactly so many digits in front of a text. -/
def fixedNumber? (count : Nat) (text : List Char) : Option (Nat × List Char) :=
  let digits := text.take count
  if digits.length = count && digits.all Char.isDigit then
    some (numeral 10 digits, text.drop count)
  else none

/-- A text without the character in front of it. -/
def dropChar? (c : Char) : List Char → Option (List Char)
  | d :: rest => if c == d then some rest else none
  | [] => none

/-- The number of days of a month. -/
def daysOfMonth (year month : Nat) : Nat :=
  if month == 2 then
    if year % 4 == 0 && (year % 100 != 0 || year % 400 == 0) then 29 else 28
  else if [4, 6, 9, 11].contains month then 30
  else 31

/-- What follows a date. -/
def afterDate? (text : List Char) : Option (List Char) := do
  let (year, text) ← fixedNumber? 4 text
  let text ← dropChar? '-' text
  let (month, text) ← fixedNumber? 2 text
  let text ← dropChar? '-' text
  let (day, text) ← fixedNumber? 2 text
  if 1 ≤ month && month ≤ 12 && 1 ≤ day && day ≤ daysOfMonth year month then some text else none

/-- What follows the seconds of a time, which may have a fraction. -/
def afterSeconds? (text : List Char) : Option (List Char) := do
  let (second, text) ← fixedNumber? 2 text
  if second ≤ 60 then
    match text with
    | '.' :: rest =>
      if (rest.takeWhile Char.isDigit).isEmpty then none else some (rest.dropWhile Char.isDigit)
    | _ => some text
  else none

/-- What follows a time of day, which need not have seconds. -/
def afterTime? (text : List Char) : Option (List Char) := do
  let (hour, text) ← fixedNumber? 2 text
  let text ← dropChar? ':' text
  let (minute, text) ← fixedNumber? 2 text
  if hour ≤ 23 && minute ≤ 59 then
    match text with
    | ':' :: rest => afterSeconds? rest
    | _ => some text
  else none

/-- The text is the distance of a place from universal time. -/
def isOffset : List Char → Bool
  | ['Z'] | ['z'] => true
  | sign :: rest =>
    (sign == '+' || sign == '-') &&
      match fixedNumber? 2 rest with
      | some (hours, ':' :: rest) =>
        match fixedNumber? 2 rest with
        | some (minutes, []) => hours ≤ 23 && minutes ≤ 59
        | _ => false
      | _ => false
  | [] => false

/-- The text is a date, a time, or a date with a time that may have an offset. -/
def isDateTime (text : List Char) : Bool :=
  match afterDate? text with
  | some [] => true
  | some (mark :: rest) =>
    (mark == 'T' || mark == 't' || mark == ' ') &&
      match afterTime? rest with
      | some rest => rest.isEmpty || isOffset rest
      | none => false
  | none => afterTime? text == some []

/-! ## All of them -/

/-- The value of a run of characters. -/
def scalar? (text : List Char) : Option Value :=
  if text == ['t', 'r', 'u', 'e'] then some (.boolean true)
  else if text == ['f', 'a', 'l', 's', 'e'] then some (.boolean false)
  else if isDateTime text then some .dateTime
  else
    match integer? text with
    | some n => some (.integer n)
    | none => (float? text).map .float

/-- The characters of which a run may consist. -/
def isScalarChar (c : Char) : Bool :=
  c.isAlphanum || c == '_' || c == '+' || c == '-' || c == '.' || c == ':'

/-- The run of characters in front of a text, and what follows it. A blank between a date and a
time belongs to the run. -/
def splitScalar (text : List Char) : List Char × List Char :=
  let run := text.takeWhile isScalarChar
  match afterDate? run, text.dropWhile isScalarChar with
  | some [], ' ' :: c :: rest =>
    if c.isDigit then
      (run ++ ' ' :: (c :: rest).takeWhile isScalarChar, (c :: rest).dropWhile isScalarChar)
    else (run, ' ' :: c :: rest)
  | _, rest => (run, rest)

end SketchSolver.Toml
