import Lox.Number.Shortest

/-!
# How numbers are written

Three texts are in use. `text` is what a program prints: whole numbers have no point, and from
`10 ^ 21` on the text has an exponent. `literalText` is what a list of tokens shows: whole
numbers end in `.0`. `jsonText` is the number in a token's JSON line.

Whole numbers are written with all their digits, others with the fewest that read back. Of two
equally near decimals the larger is taken, and in JSON the even one.
-/

namespace Lox.Number

/-- The decimal digits of `n`, most significant first. -/
def digitsOf (n : Nat) : List Char := Nat.toDigits 10 n

/-- `n / 10 ^ places`, with exactly that many places. -/
def fixed (n places : Nat) : List Char :=
  if places = 0 then digitsOf n
  else
    let tail := digitsOf (n % Nat.pow 10 places)
    digitsOf (n / Nat.pow 10 places) ++ '.' :: (List.replicate (places - tail.length) '0' ++ tail)

namespace Decimal

/-- Without an exponent. -/
def positional (d : Decimal) : List Char :=
  if d.shift < unitPlaces then fixed d.digits (unitPlaces - d.shift)
  else digitsOf (d.digits * Nat.pow 10 (d.shift - unitPlaces))

/-- The power of ten of the first digit. -/
def exponent (d : Decimal) : Int :=
  (digitsOf d.digits).length + d.shift - (unitPlaces + 1 : Nat)

/-- One digit before the point, then the power of ten with `plus` before it if not negative. -/
def scientific (d : Decimal) (plus : List Char) : List Char :=
  let power := (if d.exponent < 0 then ['-'] else plus) ++ digitsOf d.exponent.natAbs
  match digitsOf d.digits with
  | [] => 'e' :: power
  | [c] => c :: 'e' :: power
  | c :: rest => c :: '.' :: rest ++ 'e' :: power

end Decimal

/-- The magnitude is a whole number. -/
def isWhole (pattern : Nat) : Bool := units pattern % unitsOfOne = 0

/-- The digits of a whole magnitude. -/
def wholeDigits (pattern : Nat) : List Char := digitsOf (units pattern / unitsOfOne)

/-- The sign in front of a magnitude. -/
def signed (negative : Bool) (body : List Char) : String :=
  String.ofList (if negative then '-' :: body else body)

/-- The fewest digits that read back, without an exponent. -/
def shortestText (x : Float) : String :=
  let pattern := magnitude x
  if infinityBits < pattern then "NaN"
  else
    signed (isNegative x) <|
      if pattern = infinityBits then "inf".toList else (shortest .larger pattern).positional

/-- From here on a program prints numbers with an exponent. -/
def exponentFrom : Nat := Nat.pow 10 21

/-- What a program prints for a number. -/
def text (x : Float) : String :=
  let pattern := magnitude x
  let finite := pattern < infinityBits
  if finite && exponentFrom * unitsOfOne ≤ units pattern then
    signed (isNegative x) ((shortest .larger pattern).scientific [])
  else if finite && isWhole pattern then signed (isNegative x) (wholeDigits pattern)
  else shortestText x

/-- The integer that is left of a number without its fraction. An integer zero has no sign. -/
def truncated (x : Float) : Int :=
  let whole := units (magnitude x) / unitsOfOne
  if isNegative x then -whole else whole

/-- An integer in decimal. -/
def integerText (n : Int) : String := signed (n < 0) (digitsOf n.natAbs)

/-- One place after the point. What lies behind it is rounded, and a half to the even digit. -/
def onePlace (pattern : Nat) : List Char :=
  let tenths := 10 * units pattern / unitsOfOne
  let twice := 2 * (10 * units pattern % unitsOfOne)
  fixed (if unitsOfOne < twice ∨ twice = unitsOfOne ∧ tenths % 2 = 1 then tenths + 1 else tenths) 1

/-- Magnitudes from here on are no integers of 64 bits with a sign. -/
def integerLimit : Nat := Nat.pow 2 63

/-- What a token list shows for a number. A whole number is turned into an integer if it fits. -/
def literalText (x : Float) : String :=
  let pattern := magnitude x
  if infinityBits ≤ pattern || !isWhole pattern then shortestText x
  else if units pattern < integerLimit * unitsOfOne then integerText (truncated x) ++ ".0"
  else signed (isNegative x) (onePlace pattern)

/-- What stands in a JSON line: positional for powers of ten from `-5` to `15`. -/
def jsonText (x : Float) : String :=
  let pattern := magnitude x
  if infinityBits ≤ pattern then "null"
  else
    let d := shortest .even pattern
    signed (isNegative x) <|
      if pattern = 0 then "0.0".toList
      else if d.exponent < -5 ∨ 15 < d.exponent then d.scientific ['+']
      else if d.shift < unitPlaces then d.positional
      else d.positional ++ ['.', '0']

end Lox.Number
