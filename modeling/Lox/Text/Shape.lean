import Lox.Text.Combining
import Lox.Text.Unassigned

/-!
# Characters without a shape

A character has a shape of its own when a reader sees it, by itself, as a mark. Spaces other than
the plain one, controls, code points without a character and marks that need a character to stand
on have none. The ranges are those of Unicode 17.
-/

namespace Lox.Text

/-- Spaces and line ends other than the plain space: general categories Zs, Zl and Zp. -/
def separators : Ranges :=
  [(0xa0, 0xa0), (0x1680, 0x1680), (0x2000, 0x200a), (0x2028, 0x2029), (0x202f, 0x202f),
   (0x205f, 0x205f), (0x3000, 0x3000)]

/-- Control characters: general category Cc. -/
def controls : Ranges :=
  [(0x0, 0x1f), (0x7f, 0x9f)]

/-- Characters that only steer the layout of others: general category Cf. -/
def formats : Ranges :=
  [(0xad, 0xad), (0x600, 0x605), (0x61c, 0x61c), (0x6dd, 0x6dd), (0x70f, 0x70f), (0x890, 0x891),
   (0x8e2, 0x8e2), (0x180e, 0x180e), (0x200b, 0x200f), (0x202a, 0x202e), (0x2060, 0x2064),
   (0x2066, 0x206f), (0xfeff, 0xfeff), (0xfff9, 0xfffb), (0x110bd, 0x110bd), (0x110cd, 0x110cd),
   (0x13430, 0x1343f), (0x1bca0, 0x1bca3), (0x1d173, 0x1d17a), (0xe0001, 0xe0001),
   (0xe0020, 0xe007f)]

/-- Code points left to private agreement: general category Co. -/
def privates : Ranges :=
  [(0xe000, 0xf8ff), (0xf0000, 0xffffd), (0x100000, 0x10fffd)]

/-- Characters that are left out where they cannot be drawn: the property
Default_Ignorable_Code_Point. -/
def ignorables : Ranges :=
  [(0xad, 0xad), (0x34f, 0x34f), (0x61c, 0x61c), (0x115f, 0x1160), (0x17b4, 0x17b5),
   (0x180b, 0x180f), (0x200b, 0x200f), (0x202a, 0x202e), (0x2060, 0x206f), (0x3164, 0x3164),
   (0xfe00, 0xfe0f), (0xfeff, 0xfeff), (0xffa0, 0xffa0), (0xfff0, 0xfff8), (0x1bca0, 0x1bca3),
   (0x1d173, 0x1d17a), (0xe0000, 0xe0fff)]

/-- Whether a character has no shape of its own. Of ASCII, only the controls have none. -/
def isShapeless (c : Char) : Bool :=
  if c.toNat < 0x7f then c.toNat < 0x20
  else
    [separators, controls, formats, privates, ignorables, combining, unassigned].any (·.has c)

end Lox.Text
