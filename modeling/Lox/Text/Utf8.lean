/-!
# Bytes as text

Output is a row of bytes, and a limit may cut it in the middle of a character. As text, the rest
of a character that was cut is shown as one replacement character.
-/

namespace Lox.Text

/-- Stands for bytes that are no character. -/
def replacement : String := "\ufffd"

/-- The text of bytes that may end in a part of a character. A part has at most three bytes. -/
def ofCutBytes (bytes : ByteArray) : String :=
  match String.fromUTF8? bytes with
  | some s => s
  | none =>
    ([1, 2, 3].findSome? fun k =>
      (String.fromUTF8? (bytes.extract 0 (bytes.size - k))).map (· ++ replacement)).getD
        replacement

end Lox.Text
