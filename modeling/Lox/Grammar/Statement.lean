import Lox.Grammar.Expression

/-!
# The grammar of statements

```text
program     → declaration*
declaration → "class" class | "fun" function | "var" variable | statement
class       → IDENTIFIER ( "<" IDENTIFIER )? "{" function* "}"
function    → IDENTIFIER "(" parameters? ")" block
variable    → IDENTIFIER ( "=" expression )? ";"
statement   → "for" forLoop | "if" branch | "while" loop | "return" expression? ";"
            | "{" block | "print" expression ";" | expression ";"
block       → declaration* "}"
```

A declaration that fails is recorded and skipped: reading goes on at the next place where a
statement seems to start (`resume`). All other rules pass a failure on.
-/

namespace Lox

/-- A `for` loop, written with a block and a `while` loop: the initializer gets a scope of its own
around the loop, the increment runs after the body, and a missing condition is true. -/
def Stmt.forLoop (initializer : Option Stmt) (condition increment : Option Expr) (body : Stmt) :
    Stmt :=
  let body :=
    match increment with
    | some step => .block [body, .expression step]
    | none => body
  let loop := .loop (condition.getD (.constant (.bool true))) body
  match initializer with
  | some start => .block [start, loop]
  | none => loop

namespace Grammar

open Rule

/-! ## Recovery -/

/-- The words with which a statement starts. -/
def startsStatement (kind : Kind) : Bool :=
  kind ∈ [.classWord, .funWord, .varWord, .forWord, .ifWord, .whileWord, .printWord, .returnWord]

/-- After the token `previous`, the next place where a statement seems to start: after a
semicolon, before a word that starts one, or at the end of the program. -/
def boundary (previous : Token) : List Token → List Token
  | [] => []
  | t :: rest =>
    if t.kind = .eof ∨ previous.kind = .semicolon ∨ startsStatement t.kind then t :: rest
    else boundary t rest

/-- Where reading goes on after a failed declaration: beyond the next token, unless the program
ends there. -/
def resume : List Token → List Token
  | [] => []
  | t :: rest => if t.kind = .eof then t :: rest else boundary t rest

/-- Records a failure and moves on to the next statement. -/
def recover (p : Rule Stmt) : Rule (Option Stmt) := fun c =>
  match p c with
  | .ok stmt rest => .ok (some stmt) rest
  | .fail error rest =>
    .ok none { rest with input := resume rest.input, errors := rest.errors ++ [error] }

/-! ## Rules without statements inside -/

/-- The parameters from the one with the given position on. -/
def paramList : Nat → Nat → Rule (List Token)
  | 0, _ => failHere .paramName
  | n + 1, position => do
    if maxArity ≤ position then recordHere .tooManyParams
    let param ← expect .identifier .paramName
    match ← accept? [.comma] with
    | none => pure [param]
    | some _ => do
      let rest ← paramList n (position + 1)
      pure (param :: rest)

/-- The parameters of a function, if there are any. -/
def params (n : Nat) : Rule (List Token) := do
  if (← peek?) = some .rightParen then pure [] else paramList n 0

/-- An expression, unless the next token is of the given kind. -/
def exprUntil (kind : Kind) (n : Nat) : Rule (Option Expr) := do
  if (← peek?) = some kind then pure none else some <$> expression n

/-- A variable declaration, after the word `var`. -/
def varDecl (n : Nat) : Rule Stmt := do
  let name ← expect .identifier .varName
  let value ←
    match ← accept? [.equal] with
    | some _ => some <$> expression n
    | none => pure none
  let _ ← expect .semicolon .varEnd
  pure (.varDecl name value)

/-- An expression with its semicolon. -/
def expressionStatement (n : Nat) : Rule Stmt := do
  let expr ← expression n
  let _ ← expect .semicolon .expressionEnd
  pure (.expression expr)

/-- A print statement, after the word `print`. -/
def printStatement (n : Nat) : Rule Stmt := do
  let expr ← expression n
  let _ ← expect .semicolon .printEnd
  pure (.print expr)

/-- A return statement, after the word `return`. -/
def returnStatement (keyword : Token) (n : Nat) : Rule Stmt := do
  let value ← exprUntil .semicolon n
  let _ ← expect .semicolon .returnEnd
  pure (.ret keyword value)

/-- The first clause of a `for` loop, with its semicolon. -/
def forInitializer (n : Nat) : Rule (Option Stmt) := do
  match ← accept? [.semicolon] with
  | some _ => pure none
  | none => do
    match ← accept? [.varWord] with
    | some _ => some <$> varDecl n
    | none => some <$> expressionStatement n

/-- A superclass clause, if there is one. -/
def superclass : Rule (Option Expr) := do
  match ← accept? [.less] with
  | none => pure none
  | some _ => do
    let name ← expect .identifier .superclassName
    let id ← freshId
    pure (some (.var id name))

/-! ## Rules with statements inside -/

mutual

/-- A declaration or statement; one that fails is skipped. -/
def declaration : Nat → Rule (Option Stmt)
  | 0 => recover (failHere .expression)
  | n + 1 => recover do
    match ← accept? [.classWord, .funWord, .varWord] with
    | none => statement n
    | some t =>
      match t.kind with
      | .classWord => classDecl n
      | .funWord => .funDecl <$> function n .function
      | _ => varDecl n

/-- A class, after the word `class`. -/
def classDecl : Nat → Rule Stmt
  | 0 => failHere .className
  | n + 1 => do
    let name ← expect .identifier .className
    let superclass ← superclass
    let _ ← expect .leftBrace .classOpen
    let methods ← methodList n
    pure (.classDecl name superclass methods)

/-- The methods of a class, up to its closing brace. -/
def methodList : Nat → Rule (List FunctionDecl)
  | 0 => failHere .classClose
  | n + 1 => do
    match ← peek? with
    | none | some .rightBrace => do
      let _ ← expect .rightBrace .classClose
      pure []
    | some _ => do
      let method ← function n .method
      let rest ← methodList n
      pure (method :: rest)

/-- A function or a method, from its name on. -/
def function : Nat → FunctionRole → Rule FunctionDecl
  | 0, role => failHere (.functionName role)
  | n + 1, role => do
    let name ← expect .identifier (.functionName role)
    let _ ← expect .leftParen (.paramsOpen role)
    let params ← params n
    let _ ← expect .rightParen .paramsClose
    let _ ← expect .leftBrace (.bodyOpen role)
    let body ← block n
    pure ⟨name, params, body⟩

/-- The declarations of a block, up to its closing brace. -/
def block : Nat → Rule (List Stmt)
  | 0 => failHere .blockClose
  | n + 1 => do
    match ← peek? with
    | none | some .rightBrace => do
      let _ ← expect .rightBrace .blockClose
      pure []
    | some _ => do
      let stmt ← declaration n
      let rest ← block n
      pure (stmt.toList ++ rest)

/-- A statement. -/
def statement : Nat → Rule Stmt
  | 0 => failHere .expression
  | n + 1 => do
    match ← accept? [.forWord, .ifWord, .whileWord, .returnWord, .leftBrace, .printWord] with
    | none => expressionStatement n
    | some t =>
      match t.kind with
      | .forWord => forLoop n
      | .ifWord => branch n
      | .whileWord => loop n
      | .returnWord => returnStatement t n
      | .leftBrace => .block <$> block n
      | _ => printStatement n

/-- A `for` loop, after its first word. -/
def forLoop : Nat → Rule Stmt
  | 0 => failHere .forOpen
  | n + 1 => do
    let _ ← expect .leftParen .forOpen
    let initializer ← forInitializer n
    let condition ← exprUntil .semicolon n
    let _ ← expect .semicolon .forConditionEnd
    let increment ← exprUntil .rightParen n
    let _ ← expect .rightParen .forClose
    let body ← statement n
    pure (.forLoop initializer condition increment body)

/-- An `if` statement, after its first word; an `else` belongs to the nearest one. -/
def branch : Nat → Rule Stmt
  | 0 => failHere .ifOpen
  | n + 1 => do
    let _ ← expect .leftParen .ifOpen
    let condition ← expression n
    let _ ← expect .rightParen .ifClose
    let thenBranch ← statement n
    match ← accept? [.elseWord] with
    | none => pure (.branch condition thenBranch none)
    | some _ => do
      let elseBranch ← statement n
      pure (.branch condition thenBranch (some elseBranch))

/-- A `while` loop, after its first word. -/
def loop : Nat → Rule Stmt
  | 0 => failHere .whileOpen
  | n + 1 => do
    let _ ← expect .leftParen .whileOpen
    let condition ← expression n
    let _ ← expect .rightParen .whileClose
    let body ← statement n
    pure (.loop condition body)

end

/-- Declarations up to the end. -/
def program : Nat → Rule (List Stmt)
  | 0 => pure []
  | n + 1 => do
    match ← peek? with
    | none => pure []
    | some _ => do
      let stmt ← declaration n
      let rest ← program n
      pure (stmt.toList ++ rest)

end Grammar

/-! ## Whole token lists -/

/-- What a token list says: the statements that could be read, every error, and the id that the
next node would get. -/
structure Parsed where
  statements : List Stmt
  errors : List GrammarError
  nextId : NodeId

/-- The errors as shown. -/
def Parsed.reports (p : Parsed) : List Report := p.errors.map GrammarError.report

/-- Reads a token list as a program, with node ids from `firstId` on. -/
def parse (firstId : NodeId) (tokens : List Token) : Parsed :=
  match Grammar.program (Grammar.callBound tokens.length) ⟨tokens, firstId, []⟩ with
  | .ok statements rest => ⟨statements, rest.errors, rest.nextId⟩
  | .fail error rest => ⟨[], rest.errors ++ [error], rest.nextId⟩

end Lox
