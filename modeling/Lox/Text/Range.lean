/-!
# Ranges of characters

A property of characters is a list of ranges of code points, ascending and apart.
-/

namespace Lox.Text

/-- Ranges of code points, each by its first and its last. -/
abbrev Ranges := List (Nat × Nat)

/-- Whether a character lies in one of the ranges. -/
def Ranges.has (ranges : Ranges) (c : Char) : Bool :=
  ranges.any fun (first, last) => first ≤ c.toNat && c.toNat ≤ last

end Lox.Text
