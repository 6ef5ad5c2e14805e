/-!
# Numbers as whole counts of the smallest magnitude

Every finite double is a whole number of *units*, where one unit is `2 ^ -1074`, the smallest
positive double. Its bit pattern without the sign counts the doubles from zero upwards, so
patterns and magnitudes have the same order.

- `units` turns a pattern into its exact magnitude.
- `nearest` rounds a quotient of whole numbers, measured in units, to a pattern: the nearer
  neighbour wins, a half goes to the even one, and what lies too far out becomes infinity.

Reading and writing decimals work on these two functions and on natural numbers only, so
nothing is rounded twice.
-/

namespace Lox.Number

/-- The binary places after the point that a unit needs. -/
def unitPlaces : Nat := 1074

/-- The units in the number one. -/
def unitsOfOne : Nat := Nat.pow 2 unitPlaces

/-- The number of patterns with one exponent. -/
def binade : Nat := 0x10000000000000

/-- The pattern of infinity. Smaller patterns are finite and larger ones are not numbers. -/
def infinityBits : Nat := 0x7ff0000000000000

/-- The weight of the sign in a bit pattern. -/
def signWeight : Nat := 0x8000000000000000

/-- The magnitude of a finite pattern, in units. -/
def units (bits : Nat) : Nat :=
  if bits / binade = 0 then bits % binade
  else (binade + bits % binade) * Nat.pow 2 (bits / binade - 1)

/-- The pattern nearest to `num / den` units; a half goes to the even pattern. -/
def nearest (num den : Nat) : Nat :=
  let shift := (num / den).log2 - 52
  let step := den * Nat.pow 2 shift
  let whole := num / step
  let twice := 2 * (num % step)
  let rounded := if step < twice ∨ twice = step ∧ whole % 2 = 1 then whole + 1 else whole
  min (shift * binade + rounded) infinityBits

/-- The pattern of a number without its sign. -/
def magnitude (x : Float) : Nat := x.toBits.toNat % signWeight

/-- The sign bit is set. -/
def isNegative (x : Float) : Bool := signWeight ≤ x.toBits.toNat

/-- The non-negative number with the given pattern. -/
def ofMagnitude (bits : Nat) : Float := Float.ofBits bits.toUInt64

/-- The number nearest to `digits / 10 ^ places`. -/
def ofDecimal (digits places : Nat) : Float :=
  ofMagnitude (nearest (digits * unitsOfOne) (Nat.pow 10 places))

end Lox.Number
