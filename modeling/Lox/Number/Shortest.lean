import Lox.Number.Units

/-!
# The fewest digits that read back

A magnitude of `n` units is `n * 5 ^ 1074` in the last of 1074 decimal places, so its exact
decimal expansion is a natural number. `shortest` looks for the coarsest decimal grid that has
a point reading back as the magnitude. On one grid only the two neighbours of the exact value
come into question. The nearer wins; which of two equally near ones does is up to the text that
is to be written (`Tie`).

The search stops at seventeen digits, which tell any two doubles apart. Should it ever find
nothing, the exact expansion stands in, so the result reads back in any case.
-/

namespace Lox.Number

/-- A unit, counted in the last of 1074 decimal places. -/
def lastPlaces : Nat := Nat.pow 5 unitPlaces

/-- The decimal `digits * 10 ^ shift`, counted in the last of 1074 decimal places. -/
structure Decimal where
  digits : Nat
  shift : Nat
deriving DecidableEq, Repr

namespace Decimal

/-- The pattern that the decimal reads back as. -/
def bits (d : Decimal) : Nat := nearest (d.digits * Nat.pow 10 d.shift) lastPlaces

/-- The same decimal without zeros at the end of its digits. -/
def trim (d : Decimal) : Decimal :=
  if d.digits % 10 = 0 ∧ d.digits ≠ 0 then trim ⟨d.digits / 10, d.shift + 1⟩ else d
termination_by d.digits
decreasing_by omega

end Decimal

/-- The number of decimal digits, with a stride for long numbers. -/
def digitCount (n : Nat) : Nat :=
  if n < 10 then 1
  else if n < 10000000000000000 then digitCount (n / 10) + 1
  else digitCount (n / 10000000000000000) + 16
termination_by n
decreasing_by all_goals omega

/-- Which of two equally near decimals is taken. -/
inductive Tie where
  | larger
  | even
deriving DecidableEq, Repr

/-- The lower of two neighbours is preferred, when the upper one is `step` above it and the value
is `excess` above it. -/
def Tie.prefersLow (tie : Tie) (low excess step : Nat) : Bool :=
  2 * excess < step || (2 * excess = step && tie = .even && low % 2 = 0)

/-- The better neighbour of `exact` on the grid of step `10 ^ shift` among those that read back. -/
def closest (tie : Tie) (pattern exact shift : Nat) : Option Decimal :=
  let step := Nat.pow 10 shift
  let low : Decimal := ⟨exact / step, shift⟩
  let high : Decimal := ⟨exact / step + 1, shift⟩
  let lowFits := low.bits = pattern
  let highFits := high.bits = pattern
  if lowFits ∧ (tie.prefersLow low.digits (exact % step) step ∨ ¬ highFits) then some low
  else if highFits then some high
  else none

/-- The decimal with the fewest digits that reads back as the finite pattern. -/
def shortest (tie : Tie) (pattern : Nat) : Decimal :=
  let exact := units pattern * lastPlaces
  let length := digitCount exact
  (((List.range 17).findSome? fun k => closest tie pattern exact (length - (k + 1))).getD
    ⟨exact, 0⟩).trim

end Lox.Number
