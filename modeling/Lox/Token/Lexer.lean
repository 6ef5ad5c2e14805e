import Lox.Number.Units
import Lox.Report

/-!
# Lexemes

What the scanner looks up: the classes of characters, the lexemes that are not made of a class, and
the value of a number. What it yields is an item, a token or an error.
-/

namespace Lox

/-- Why a piece of source is no token. -/
inductive LexicalFault where
  | unexpected (c : Char)
  | unterminatedString
  | invalidNumber (text : String)
deriving DecidableEq, Repr

/-- The wording of a lexical fault. -/
def LexicalFault.message : LexicalFault → String
  | unexpected c => "Unexpected character: " ++ c.toString
  | unterminatedString => "Unterminated string."
  | invalidNumber text => "Invalid number '" ++ text ++ "': invalid float literal"

/-- A lexical fault and its line. -/
structure LexicalError where
  line : Nat
  fault : LexicalFault
deriving DecidableEq, Repr

/-- The error as shown. -/
def LexicalError.report (e : LexicalError) : Report := .lexical e.line e.fault.message

namespace Lexer

/-! ## Character classes -/

/-- A word starts with an ASCII letter or an underscore. -/
def startsWord (c : Char) : Bool := c.isAlpha || c = '_'

/-- A word goes on with letters, digits and underscores. -/
def inWord (c : Char) : Bool := c.isAlphanum || c = '_'

/-- The lexemes of one character that nothing extends. -/
def punctuator? : Char → Option Kind
  | '(' => some .leftParen
  | ')' => some .rightParen
  | '\x7b' => some .leftBrace
  | '\x7d' => some .rightBrace
  | ',' => some .comma
  | '.' => some .dot
  | '-' => some .minus
  | '+' => some .plus
  | ';' => some .semicolon
  | '*' => some .star
  | _ => none

/-- The lexemes that a following `=` extends: the kind alone and the kind with it. -/
def operator? : Char → Option (Kind × Kind)
  | '!' => some (.bang, .bangEqual)
  | '=' => some (.equal, .equalEqual)
  | '<' => some (.less, .lessEqual)
  | '>' => some (.greater, .greaterEqual)
  | _ => none

/-! ## Numbers -/

/-- The value of a row of digits. -/
def digitsValue (digits : List Char) : Nat :=
  digits.foldl (fun n c => 10 * n + (c.toNat - '0'.toNat)) 0

/-- The value of a number with the given digits before and after the point. -/
def numberValue (whole places : List Char) : Float :=
  Number.ofDecimal (digitsValue (whole ++ places)) places.length

/-- The number that a whole text stands for: digits, and digits after a point if there is one. One
of the two rows may be empty. -/
def decimal? (text : List Char) : Option Float :=
  let whole := text.takeWhile Char.isDigit
  match text.dropWhile Char.isDigit with
  | [] => if whole.isEmpty then none else some (numberValue whole [])
  | '.' :: places =>
    if places.all Char.isDigit && !(whole.isEmpty && places.isEmpty) then
      some (numberValue whole places)
    else none
  | _ => none

/-! ## Items -/

/-- What a source yields, in order: tokens and errors. -/
abbrev Item := Except LexicalError Token

/-- The tokens among items. -/
def tokens (items : List Item) : List Token :=
  items.filterMap fun
    | .ok t => some t
    | .error _ => none

/-- The errors among items. -/
def errors (items : List Item) : List LexicalError :=
  items.filterMap fun
    | .ok _ => none
    | .error e => some e

end Lexer

end Lox
