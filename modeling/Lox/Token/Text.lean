import Lox.Number.Text
import Lox.Text.Quoted
import Lox.Token

/-!
# How tokens are listed

`Token.text` is the line of a plain listing and `Token.jsonText` that of a JSON listing, whose
keys come in a fixed order.
-/

namespace Lox

/-- A literal in a plain listing. -/
def Literal.listing : Literal → String
  | .number value => Number.literalText value
  | .text value => value

/-- A literal in a JSON listing. -/
def Literal.jsonText : Literal → String
  | .number value => "\x7b\"Number\":" ++ Number.jsonText value ++ "\x7d"
  | .text value => "\x7b\"Str\":" ++ Text.json value ++ "\x7d"

namespace Token

/-- Kind, lexeme and literal, divided by blanks. -/
def text (t : Token) : String :=
  t.kind.name ++ " " ++ t.lexeme ++ " " ++ (t.literal.map Literal.listing).getD "null"

/-- The token as one JSON object. -/
def jsonText (t : Token) : String :=
  "\x7b\"token_type\":\"" ++ t.kind.name ++ "\",\"lexeme\":" ++ Text.json t.lexeme
    ++ ",\"literal\":" ++ (t.literal.map Literal.jsonText).getD "null"
    ++ ",\"line\":" ++ toString t.line ++ "\x7d"

end Token

end Lox
