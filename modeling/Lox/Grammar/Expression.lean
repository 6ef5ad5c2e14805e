import Lox.Grammar.Cursor

/-!
# The grammar of expressions

The rules, from the loosest to the tightest:

```text
expression  → assignment
assignment  → ( call "." )? IDENTIFIER "=" assignment | level disjunction
level       → operand ( operator operand )*      for or, and, equality, comparison, term, factor
unary       → ( "!" | "-" ) unary | call
call        → primary ( "(" arguments? ")" | "." IDENTIFIER )*
arguments   → expression ( "," expression )*
primary     → NUMBER | STRING | "true" | "false" | "nil" | "this" | IDENTIFIER
            | "(" expression ")" | "super" "." IDENTIFIER
```

An assignment is read as its left side first, which afterwards has to be a variable or a
property. A wrong left side is recorded and does not stop the rule.

Each rule has a bound on the calls that it may nest. A rule that runs into its bound answers as
it would at the end of the program, which is the right answer if the bound grows with the number
of tokens as in `callBound`.
-/

namespace Lox.Grammar

open Rule

/-- Calls that suffice for a list of `tokens` tokens: each token read allows for one descent
through all the rules. -/
def callBound (tokens : Nat) : Nat := 32 * (tokens + 1)

/-- The left-associative levels, loosest first. -/
inductive Level where
  | disjunction | conjunction | equality | comparison | term | factor
deriving DecidableEq, Repr

namespace Level

/-- The operators of a level. -/
def operators : Level → List Kind
  | disjunction => [.orWord]
  | conjunction => [.andWord]
  | equality => [.bangEqual, .equalEqual]
  | comparison => [.greater, .greaterEqual, .less, .lessEqual]
  | term => [.minus, .plus]
  | factor => [.star, .slash]

/-- The next tighter level; the operands of the last one are unary expressions. -/
def tighter? : Level → Option Level
  | disjunction => some conjunction
  | conjunction => some equality
  | equality => some comparison
  | comparison => some term
  | term => some factor
  | factor => none

/-- The tree of two operands: the first two levels stop early, the others use both operands. -/
def join : Level → Expr → Token → Expr → Expr
  | disjunction | conjunction => .logical
  | equality | comparison | term | factor => .binary

end Level

/-- What the value of a number or string token means as an expression. -/
def ofLiteral (site : Token) : Rule Expr :=
  match site.literal with
  | some (.number value) => pure (.constant (.number value))
  | some (.text value) => pure (.constant (.text value))
  | none => failAt site .malformedLiteral

/-- The assignment of a value to what stands left of the equals sign. -/
def assignTo (target : Expr) (equals : Token) (value : Expr) : Rule Expr :=
  match target with
  | .var _ name => do
    let id ← freshId
    pure (.assign id name value)
  | .get object name => pure (.set object name value)
  | _ => do
    record ⟨equals, .invalidTarget⟩
    pure target

/-- A superclass method, after the word `super`. -/
def superMethod (keyword : Token) : Rule Expr := do
  let _ ← expect .dot .superDot
  let method ← expect .identifier .superMethod
  let id ← freshId
  pure (.super id keyword method)

mutual

/-- An expression. -/
def expression : Nat → Rule Expr
  | 0 => failHere .expression
  | n + 1 => do
    let target ← level n .disjunction
    match ← accept? [.equal] with
    | none => pure target
    | some equals => do
      let value ← expression n
      assignTo target equals value

/-- One operand of a level. -/
def operand : Nat → Level → Rule Expr
  | 0, _ => failHere .expression
  | n + 1, l =>
    match l.tighter? with
    | some tight => level n tight
    | none => unary n

/-- A level: operands divided by its operators. -/
def level : Nat → Level → Rule Expr
  | 0, _ => failHere .expression
  | n + 1, l => do
    let left ← operand n l
    levelTail n l left

/-- What follows an operand of a level. -/
def levelTail : Nat → Level → Expr → Rule Expr
  | 0, _, left => pure left
  | n + 1, l, left => do
    match ← accept? l.operators with
    | none => pure left
    | some op => do
      let right ← operand n l
      levelTail n l (l.join left op right)

/-- A prefix operator and its operand, or a call. -/
def unary : Nat → Rule Expr
  | 0 => failHere .expression
  | n + 1 => do
    match ← accept? [.bang, .minus] with
    | some op => do
      let right ← unary n
      pure (.unary op right)
    | none => do
      let callee ← primary n
      callTail n callee

/-- Calls and properties that follow an expression. -/
def callTail : Nat → Expr → Rule Expr
  | 0, callee => pure callee
  | n + 1, callee => do
    match ← accept? [.leftParen] with
    | some _ => do
      let args ← arguments n
      let paren ← expect .rightParen .argumentsClose
      callTail n (.call callee paren args)
    | none => do
      match ← accept? [.dot] with
      | some _ => do
        let name ← expect .identifier .propertyName
        callTail n (.get callee name)
      | none => pure callee

/-- The arguments of a call, if there are any. -/
def arguments : Nat → Rule (List Expr)
  | 0 => pure []
  | n + 1 => do
    if (← peek?) = some .rightParen then pure [] else argumentList n 0

/-- The arguments from the one with the given position on. -/
def argumentList : Nat → Nat → Rule (List Expr)
  | 0, _ => failHere .expression
  | n + 1, position => do
    if maxArity ≤ position then recordHere .tooManyArguments
    let argument ← expression n
    match ← accept? [.comma] with
    | none => pure [argument]
    | some _ => do
      let rest ← argumentList n (position + 1)
      pure (argument :: rest)

/-- The tightest expressions. -/
def primary : Nat → Rule Expr
  | 0 => failHere .expression
  | n + 1 => do
    match ← accept? [.falseWord, .trueWord, .nilWord, .number, .string, .superWord, .thisWord,
      .identifier, .leftParen] with
    | none => failHere .expression
    | some t =>
      match t.kind with
      | .falseWord => pure (.constant (.bool false))
      | .trueWord => pure (.constant (.bool true))
      | .nilWord => pure (.constant .nil)
      | .superWord => superMethod t
      | .thisWord => do
        let id ← freshId
        pure (.this id t)
      | .identifier => do
        let id ← freshId
        pure (.var id t)
      | .leftParen => do
        let inner ← expression n
        let _ ← expect .rightParen .groupingClose
        pure (.grouping inner)
      | _ => ofLiteral t

end

end Lox.Grammar
