import Lox.Grammar.Fault
import Lox.Tree

/-!
# Reading tokens from left to right

A cursor holds the tokens from the current one on, the next free node id and the errors recorded
so far. A rule moves the cursor and gives a value, or fails with an error; in both cases the
cursor tells how far it came. Tokens are only ever taken from the front, and errors only ever
added at the back.

A program ends at the first closing token, which is never taken: all looking ahead goes through
`Cursor.peek`, and a rule that comes to the closing token finds that it is at the end. A list that
lacks such a token ends where its tokens do, as if a closing token on line zero came next.
-/

namespace Lox.Grammar

/-- A place in a token list, with what has been handed out and recorded on the way. -/
structure Cursor where
  input : List Token
  nextId : NodeId
  errors : List GrammarError
deriving DecidableEq

/-- Stands in for the next token where the list has none left. -/
def endOfInput : Token := Token.endOfFile 0

namespace Cursor

/-- The next token. -/
def peek (c : Cursor) : Token := c.input.head?.getD endOfInput

/-- Whether the program ends here. -/
def isAtEnd (c : Cursor) : Bool := c.peek.kind = .eof

/-- Whether the next token is of the given kind. At the end it is of none. -/
def check (c : Cursor) (kind : Kind) : Bool := !c.isAtEnd && c.peek.kind = kind

/-- Beyond the next token, unless the program ends here. -/
def advance (c : Cursor) : Cursor := if c.isAtEnd then c else { c with input := c.input.tail }

end Cursor

/-- How far a rule came, and with what. -/
inductive Outcome (α : Type) where
  | ok (value : α) (rest : Cursor)
  | fail (error : GrammarError) (rest : Cursor)

/-- A rule moves a cursor. -/
def Rule (α : Type) := Cursor → Outcome α

namespace Rule

instance : Monad Rule where
  pure value := fun c => .ok value c
  bind p f := fun c =>
    match p c with
    | .ok value rest => f value rest
    | .fail error rest => .fail error rest

/-- The kind of the next token, unless the program ends here. -/
def peek? : Rule (Option Kind) := fun c => .ok (if c.isAtEnd then none else some c.peek.kind) c

/-- Fails at the next token. -/
def failHere {α : Type} (fault : GrammarFault) : Rule α := fun c => .fail ⟨c.peek, fault⟩ c

/-- Fails at a token already read. -/
def failAt {α : Type} (site : Token) (fault : GrammarFault) : Rule α := fun c =>
  .fail ⟨site, fault⟩ c

/-- Records an error and goes on. -/
def record (error : GrammarError) : Rule Unit := fun c =>
  .ok () { c with errors := c.errors ++ [error] }

/-- Records an error at the next token and goes on. -/
def recordHere (fault : GrammarFault) : Rule Unit := fun c => record ⟨c.peek, fault⟩ c

/-- Hands out a node id. -/
def freshId : Rule NodeId := fun c => .ok c.nextId { c with nextId := c.nextId + 1 }

/-- Takes the next token if its kind is among `kinds`. -/
def accept? (kinds : List Kind) : Rule (Option Token) := fun c =>
  if kinds.any c.check then .ok (some c.peek) c.advance else .ok none c

/-- Takes the next token, which has to be of the given kind. -/
def expect (kind : Kind) (fault : GrammarFault) : Rule Token := do
  match ← accept? [kind] with
  | some t => pure t
  | none => failHere fault

end Rule

end Lox.Grammar
