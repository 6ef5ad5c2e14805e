import Lox.Text.Shape

/-!
# Quoted texts

A quoted text stands between double quotes, and some of its characters are written as escapes.
Two sets of escapes are in use: that of JSON, and that of names shown for inspection.
-/

namespace Lox.Text

/-- A text between double quotes, each character written by `escape`. -/
def quoteWith (escape : Char → List Char) (s : String) : String :=
  String.ofList ('"' :: s.toList.flatMap escape ++ ['"'])

/-- `n` in hexadecimal, with at least `width` digits. -/
def hex (width n : Nat) : List Char :=
  let digits := Nat.toDigits 16 n
  List.replicate (width - digits.length) '0' ++ digits

/-- In JSON, quotes, backslashes and control characters are escaped and all else stands. -/
def jsonEscape (c : Char) : List Char :=
  match c with
  | '"' => ['\\', '"']
  | '\\' => ['\\', '\\']
  | '\n' => ['\\', 'n']
  | '\r' => ['\\', 'r']
  | '\t' => ['\\', 't']
  | '\x08' => ['\\', 'b']
  | '\x0c' => ['\\', 'f']
  | c => if c.toNat < 0x20 then '\\' :: 'u' :: hex 4 c.toNat else [c]

/-- For inspection, a character without a shape is written by its code point. -/
def inspectEscape (c : Char) : List Char :=
  match c with
  | '"' => ['\\', '"']
  | '\\' => ['\\', '\\']
  | '\n' => ['\\', 'n']
  | '\r' => ['\\', 'r']
  | '\t' => ['\\', 't']
  | '\x00' => ['\\', '0']
  | c => if isShapeless c then ['\\', 'u', '\x7b'] ++ hex 1 c.toNat ++ ['\x7d'] else [c]

/-- A text as a JSON string. -/
def json (s : String) : String := quoteWith jsonEscape s

/-- A text quoted for inspection. -/
def inspect (s : String) : String := quoteWith inspectEscape s

end Lox.Text
