import Lox.Grammar.Statement

/-!
# The grammar as a relation

Each rule of the grammar relates the front of a token list, the tree that stands for it, and the
tokens that follow. Trees are written without node ids (every id is zero). The rules are those of

```text
program        → declaration* EOF
declaration    → classDecl | funDecl | varDecl | statement
classDecl      → "class" IDENT ( "<" IDENT )? "{" function* "}"
funDecl        → "fun" function
function       → IDENT "(" parameters? ")" block
varDecl        → "var" IDENT ( "=" expression )? ";"
statement      → exprStmt | forStmt | ifStmt | printStmt | returnStmt | whileStmt | block
exprStmt       → expression ";"
forStmt        → "for" "(" ( varDecl | exprStmt | ";" ) expression? ";" expression? ")" statement
ifStmt         → "if" "(" expression ")" statement ( "else" statement )?
printStmt      → "print" expression ";"
returnStmt     → "return" expression? ";"
whileStmt      → "while" "(" expression ")" statement
block          → "{" declaration* "}"
parameters     → IDENT ( "," IDENT )*
expression     → assignment
assignment     → ( call "." )? IDENT "=" assignment | logic_or
logic_or       → logic_and ( "or" logic_and )*
logic_and      → equality ( "and" equality )*
equality       → comparison ( ( "!=" | "==" ) comparison )*
comparison     → term ( ( ">" | ">=" | "<" | "<=" ) term )*
term           → factor ( ( "-" | "+" ) factor )*
factor         → unary ( ( "/" | "*" ) unary )*
unary          → ( "!" | "-" ) unary | call
call           → primary ( "(" arguments? ")" | "." IDENT )*
arguments      → expression ( "," expression )*
primary        → NUMBER | STRING | "true" | "false" | "nil" | "this" | IDENT
               | "(" expression ")" | "super" "." IDENT
```

with at most 255 parameters and at most 255 arguments. A `for` loop has no tree of its own: it
stands for a `while` loop, with blocks around it as its clauses need them (`ForTree`).

These rules leave open to which `if` an `else` belongs. A statement is *open* if it ends with an
`if` that could still take an `else`. The strict grammar wants the part between an `if` and its
`else` to be closed, which gives every `else` to the nearest `if`; the other one does not care.
-/

namespace Lox.Syntax

open Grammar (Level)

/-! ## Expressions -/

/-- The operators of the levels of binary expressions. -/
inductive Operator : Level → Kind → Prop
  | or : Operator .disjunction .orWord
  | and : Operator .conjunction .andWord
  | notEqual : Operator .equality .bangEqual
  | equal : Operator .equality .equalEqual
  | greater : Operator .comparison .greater
  | greaterEqual : Operator .comparison .greaterEqual
  | less : Operator .comparison .less
  | lessEqual : Operator .comparison .lessEqual
  | minus : Operator .term .minus
  | plus : Operator .term .plus
  | slash : Operator .factor .slash
  | star : Operator .factor .star

/-- The tree of two operands. -/
inductive Joined (left : Expr) (op : Token) (right : Expr) : Expr → Prop
  | logical : op.kind = .orWord ∨ op.kind = .andWord → Joined left op right (.logical left op right)
  | binary : op.kind ≠ .orWord → op.kind ≠ .andWord → Joined left op right (.binary left op right)

/-- The constant that a literal stands for. -/
def constant : Literal → Constant
  | .number value => .number value
  | .text value => .text value

mutual

/-- `expression → assignment`, `assignment → ( call "." )? IDENT "=" assignment | logic_or` -/
inductive Expression : List Token → Expr → List Token → Prop
  | assignVariable {name equals : Token} {ts rest : List Token} {value : Expr} :
      name.kind = .identifier → equals.kind = .equal → Expression ts value rest →
      Expression (name :: equals :: ts) (.assign 0 name value) rest
  | assignProperty {dot name equals : Token} {ts ts' rest : List Token} {object value : Expr} :
      Call ts object (dot :: name :: equals :: ts') → dot.kind = .dot →
      name.kind = .identifier → equals.kind = .equal → Expression ts' value rest →
      Expression ts (.set object name value) rest
  | logicOr {ts rest : List Token} {e : Expr} :
      Chain .disjunction ts e rest → Expression ts e rest

/-- `level → operand ( operator operand )*` -/
inductive Chain : Level → List Token → Expr → List Token → Prop
  | mk {l : Level} {ts ts' rest : List Token} {left e : Expr} :
      Operand l ts left ts' → Links l left ts' e rest → Chain l ts e rest

/-- The operands of each level. -/
inductive Operand : Level → List Token → Expr → List Token → Prop
  | logicAnd {ts rest : List Token} {e : Expr} :
      Chain .conjunction ts e rest → Operand .disjunction ts e rest
  | equality {ts rest : List Token} {e : Expr} :
      Chain .equality ts e rest → Operand .conjunction ts e rest
  | comparison {ts rest : List Token} {e : Expr} :
      Chain .comparison ts e rest → Operand .equality ts e rest
  | term {ts rest : List Token} {e : Expr} :
      Chain .term ts e rest → Operand .comparison ts e rest
  | factor {ts rest : List Token} {e : Expr} :
      Chain .factor ts e rest → Operand .term ts e rest
  | unary {ts rest : List Token} {e : Expr} :
      Unary ts e rest → Operand .factor ts e rest

/-- `( operator operand )*` after what stands to the left -/
inductive Links : Level → Expr → List Token → Expr → List Token → Prop
  | nil {l : Level} {left : Expr} {ts : List Token} : Links l left ts left ts
  | cons {l : Level} {op : Token} {ts ts' rest : List Token} {left right both e : Expr} :
      Operator l op.kind → Operand l ts right ts' → Joined left op right both →
      Links l both ts' e rest → Links l left (op :: ts) e rest

/-- `unary → ( "!" | "-" ) unary | call` -/
inductive Unary : List Token → Expr → List Token → Prop
  | operator {op : Token} {ts rest : List Token} {right : Expr} :
      op.kind = .bang ∨ op.kind = .minus → Unary ts right rest →
      Unary (op :: ts) (.unary op right) rest
  | call {ts rest : List Token} {e : Expr} : Call ts e rest → Unary ts e rest

/-- `call → primary ( "(" arguments? ")" | "." IDENT )*` -/
inductive Call : List Token → Expr → List Token → Prop
  | mk {ts ts' rest : List Token} {callee e : Expr} :
      Primary ts callee ts' → Postfix callee ts' e rest → Call ts e rest

/-- `( "(" arguments? ")" | "." IDENT )*` after what stands to the left -/
inductive Postfix : Expr → List Token → Expr → List Token → Prop
  | nil {callee : Expr} {ts : List Token} : Postfix callee ts callee ts
  | call {paren close : Token} {ts rest : List Token} {callee e : Expr} :
      paren.kind = .leftParen → close.kind = .rightParen →
      Postfix (.call callee close []) ts e rest → Postfix callee (paren :: close :: ts) e rest
  | callWith {paren close : Token} {ts ts' rest : List Token} {callee e : Expr}
      {arguments : List Expr} :
      paren.kind = .leftParen → Arguments ts arguments (close :: ts') →
      close.kind = .rightParen → arguments.length ≤ 255 →
      Postfix (.call callee close arguments) ts' e rest → Postfix callee (paren :: ts) e rest
  | property {dot name : Token} {ts rest : List Token} {callee e : Expr} :
      dot.kind = .dot → name.kind = .identifier → Postfix (.get callee name) ts e rest →
      Postfix callee (dot :: name :: ts) e rest

/-- `arguments → expression ( "," expression )*` -/
inductive Arguments : List Token → List Expr → List Token → Prop
  | last {ts rest : List Token} {e : Expr} : Expression ts e rest → Arguments ts [e] rest
  | cons {comma : Token} {ts ts' rest : List Token} {e : Expr} {es : List Expr} :
      Expression ts e (comma :: ts') → comma.kind = .comma → Arguments ts' es rest →
      Arguments ts (e :: es) rest

/-- `primary → NUMBER | STRING | "true" | … | "super" "." IDENT`. A number or a string token has to
carry the value that it stands for. -/
inductive Primary : List Token → Expr → List Token → Prop
  | literal {t : Token} {rest : List Token} {value : Literal} :
      t.kind = .number ∨ t.kind = .string → t.literal = some value →
      Primary (t :: rest) (.constant (constant value)) rest
  | true {t : Token} {rest : List Token} :
      t.kind = .trueWord → Primary (t :: rest) (.constant (.bool true)) rest
  | false {t : Token} {rest : List Token} :
      t.kind = .falseWord → Primary (t :: rest) (.constant (.bool false)) rest
  | nil {t : Token} {rest : List Token} :
      t.kind = .nilWord → Primary (t :: rest) (.constant .nil) rest
  | this {t : Token} {rest : List Token} :
      t.kind = .thisWord → Primary (t :: rest) (.this 0 t) rest
  | identifier {t : Token} {rest : List Token} :
      t.kind = .identifier → Primary (t :: rest) (.var 0 t) rest
  | grouping {paren close : Token} {ts rest : List Token} {inner : Expr} :
      paren.kind = .leftParen → Expression ts inner (close :: rest) → close.kind = .rightParen →
      Primary (paren :: ts) (.grouping inner) rest
  | super {t dot method : Token} {rest : List Token} :
      t.kind = .superWord → dot.kind = .dot → method.kind = .identifier →
      Primary (t :: dot :: method :: rest) (.super 0 t method) rest

end

/-! ## Statements -/

/-- `expression?` -/
inductive OptExpression : List Token → Option Expr → List Token → Prop
  | none {ts : List Token} : OptExpression ts none ts
  | some {ts rest : List Token} {e : Expr} : Expression ts e rest → OptExpression ts (some e) rest

/-- `varDecl → "var" IDENT ( "=" expression )? ";"` -/
inductive VarDecl : List Token → Stmt → List Token → Prop
  | bare {word name semicolon : Token} {rest : List Token} :
      word.kind = .varWord → name.kind = .identifier → semicolon.kind = .semicolon →
      VarDecl (word :: name :: semicolon :: rest) (.varDecl name none) rest
  | initialized {word name equals semicolon : Token} {ts rest : List Token} {e : Expr} :
      word.kind = .varWord → name.kind = .identifier → equals.kind = .equal →
      Expression ts e (semicolon :: rest) → semicolon.kind = .semicolon →
      VarDecl (word :: name :: equals :: ts) (.varDecl name (some e)) rest

/-- `exprStmt → expression ";"` -/
inductive ExprStmt : List Token → Stmt → List Token → Prop
  | mk {semicolon : Token} {ts rest : List Token} {e : Expr} :
      Expression ts e (semicolon :: rest) → semicolon.kind = .semicolon →
      ExprStmt ts (.expression e) rest

/-- `varDecl | exprStmt | ";"` -/
inductive ForStart : List Token → Option Stmt → List Token → Prop
  | varDecl {ts rest : List Token} {s : Stmt} : VarDecl ts s rest → ForStart ts (some s) rest
  | exprStmt {ts rest : List Token} {s : Stmt} : ExprStmt ts s rest → ForStart ts (some s) rest
  | none {semicolon : Token} {rest : List Token} :
      semicolon.kind = .semicolon → ForStart (semicolon :: rest) none rest

/-- The tree of a `for` loop with the given body, for each choice of its clauses. The step comes
after the body, a loop without a condition goes on while `true`, and what starts the loop stands
before it in a block around both. -/
inductive ForTree (body : Stmt) : Option Stmt → Option Expr → Option Expr → Stmt → Prop
  | bare : ForTree body none none none (.loop (.constant (.bool true)) body)
  | step {step : Expr} : ForTree body none none (some step)
      (.loop (.constant (.bool true)) (.block [body, .expression step]))
  | condition {condition : Expr} : ForTree body none (some condition) none (.loop condition body)
  | conditionStep {condition step : Expr} : ForTree body none (some condition) (some step)
      (.loop condition (.block [body, .expression step]))
  | start {start : Stmt} : ForTree body (some start) none none
      (.block [start, .loop (.constant (.bool true)) body])
  | startStep {start : Stmt} {step : Expr} : ForTree body (some start) none (some step)
      (.block [start, .loop (.constant (.bool true)) (.block [body, .expression step])])
  | startCondition {start : Stmt} {condition : Expr} :
      ForTree body (some start) (some condition) none (.block [start, .loop condition body])
  | startConditionStep {start : Stmt} {condition step : Expr} :
      ForTree body (some start) (some condition) (some step)
        (.block [start, .loop condition (.block [body, .expression step])])

/-- The program builds this tree. -/
theorem forTree_iff {body tree : Stmt} {start : Option Stmt} {condition step : Option Expr} :
    ForTree body start condition step tree ↔ tree = .forLoop start condition step body := by
  constructor
  · intro h
    cases h <;> rfl
  · rintro rfl
    cases start <;> cases condition <;> cases step <;> constructor

/-- `parameters → IDENT ( "," IDENT )*` -/
inductive Parameters : List Token → List Token → List Token → Prop
  | last {name : Token} {rest : List Token} :
      name.kind = .identifier → Parameters (name :: rest) [name] rest
  | cons {name comma : Token} {ts rest names : List Token} :
      name.kind = .identifier → comma.kind = .comma → Parameters ts names rest →
      Parameters (name :: comma :: ts) (name :: names) rest

/-- `parameters?`, at most 255 of them -/
inductive OptParameters : List Token → List Token → List Token → Prop
  | none {ts : List Token} : OptParameters ts [] ts
  | some {ts rest names : List Token} :
      Parameters ts names rest → names.length ≤ 255 → OptParameters ts names rest

/-- `( "<" IDENT )?` -/
inductive Superclass : List Token → Option Expr → List Token → Prop
  | none {ts : List Token} : Superclass ts none ts
  | some {less name : Token} {rest : List Token} :
      less.kind = .less → name.kind = .identifier →
      Superclass (less :: name :: rest) (some (.var 0 name)) rest

section

variable (strict : Bool)

mutual

/-- `statement → exprStmt | forStmt | ifStmt | printStmt | returnStmt | whileStmt | block`; the flag
tells whether the statement is open. -/
inductive Statement : Bool → List Token → Stmt → List Token → Prop
  | exprStmt {ts rest : List Token} {s : Stmt} : ExprStmt ts s rest → Statement false ts s rest
  | forStmt {isOpen : Bool} {word paren semicolon close : Token}
      {ts₁ ts₂ ts₃ ts₄ rest : List Token} {start : Option Stmt} {condition step : Option Expr}
      {body tree : Stmt} :
      word.kind = .forWord → paren.kind = .leftParen → ForStart ts₁ start ts₂ →
      OptExpression ts₂ condition (semicolon :: ts₃) → semicolon.kind = .semicolon →
      OptExpression ts₃ step (close :: ts₄) → close.kind = .rightParen →
      Statement isOpen ts₄ body rest → ForTree body start condition step tree →
      Statement isOpen (word :: paren :: ts₁) tree rest
  | ifStmt {isOpen : Bool} {word paren close : Token} {ts₁ ts₂ rest : List Token}
      {condition : Expr} {body : Stmt} :
      word.kind = .ifWord → paren.kind = .leftParen → Expression ts₁ condition (close :: ts₂) →
      close.kind = .rightParen → Statement isOpen ts₂ body rest →
      Statement true (word :: paren :: ts₁) (.branch condition body none) rest
  | ifElse {isOpen isOpen' : Bool} {word paren close other : Token}
      {ts₁ ts₂ ts₃ rest : List Token} {condition : Expr} {body body' : Stmt} :
      word.kind = .ifWord → paren.kind = .leftParen → Expression ts₁ condition (close :: ts₂) →
      close.kind = .rightParen → Statement isOpen ts₂ body (other :: ts₃) →
      (strict = true → isOpen = false) → other.kind = .elseWord →
      Statement isOpen' ts₃ body' rest →
      Statement isOpen' (word :: paren :: ts₁) (.branch condition body (some body')) rest
  | printStmt {word semicolon : Token} {ts rest : List Token} {e : Expr} :
      word.kind = .printWord → Expression ts e (semicolon :: rest) →
      semicolon.kind = .semicolon → Statement false (word :: ts) (.print e) rest
  | returnStmt {word semicolon : Token} {ts rest : List Token} {e : Option Expr} :
      word.kind = .returnWord → OptExpression ts e (semicolon :: rest) →
      semicolon.kind = .semicolon → Statement false (word :: ts) (.ret word e) rest
  | whileStmt {isOpen : Bool} {word paren close : Token} {ts₁ ts₂ rest : List Token}
      {condition : Expr} {body : Stmt} :
      word.kind = .whileWord → paren.kind = .leftParen →
      Expression ts₁ condition (close :: ts₂) → close.kind = .rightParen →
      Statement isOpen ts₂ body rest →
      Statement isOpen (word :: paren :: ts₁) (.loop condition body) rest
  | block {ts rest : List Token} {ss : List Stmt} :
      Block ts ss rest → Statement false ts (.block ss) rest

/-- `block → "{" declaration* "}"` -/
inductive Block : List Token → List Stmt → List Token → Prop
  | mk {brace close : Token} {ts rest : List Token} {ss : List Stmt} :
      brace.kind = .leftBrace → Declarations ts ss (close :: rest) → close.kind = .rightBrace →
      Block (brace :: ts) ss rest

/-- `declaration*` -/
inductive Declarations : List Token → List Stmt → List Token → Prop
  | nil {ts : List Token} : Declarations ts [] ts
  | cons {ts ts' rest : List Token} {s : Stmt} {ss : List Stmt} :
      Declaration ts s ts' → Declarations ts' ss rest → Declarations ts (s :: ss) rest

/-- `declaration → classDecl | funDecl | varDecl | statement` -/
inductive Declaration : List Token → Stmt → List Token → Prop
  | classDecl {word name brace close : Token} {ts ts' rest : List Token}
      {superclass : Option Expr} {methods : List FunctionDecl} :
      word.kind = .classWord → name.kind = .identifier →
      Superclass ts superclass (brace :: ts') → brace.kind = .leftBrace →
      Functions ts' methods (close :: rest) → close.kind = .rightBrace →
      Declaration (word :: name :: ts) (.classDecl name superclass methods) rest
  | funDecl {word : Token} {ts rest : List Token} {f : FunctionDecl} :
      word.kind = .funWord → Function ts f rest → Declaration (word :: ts) (.funDecl f) rest
  | varDecl {ts rest : List Token} {s : Stmt} : VarDecl ts s rest → Declaration ts s rest
  | statement {isOpen : Bool} {ts rest : List Token} {s : Stmt} :
      Statement isOpen ts s rest → Declaration ts s rest

/-- `function → IDENT "(" parameters? ")" block` -/
inductive Function : List Token → FunctionDecl → List Token → Prop
  | mk {name paren close : Token} {ts ts' rest params : List Token} {body : List Stmt} :
      name.kind = .identifier → paren.kind = .leftParen →
      OptParameters ts params (close :: ts') → close.kind = .rightParen →
      Block ts' body rest → Function (name :: paren :: ts) ⟨name, params, body⟩ rest

/-- `function*` -/
inductive Functions : List Token → List FunctionDecl → List Token → Prop
  | nil {ts : List Token} : Functions ts [] ts
  | cons {ts ts' rest : List Token} {f : FunctionDecl} {fs : List FunctionDecl} :
      Function ts f ts' → Functions ts' fs rest → Functions ts (f :: fs) rest

end

/-- `program → declaration* EOF`, for the tokens before the end -/
def Program (ts : List Token) (ss : List Stmt) : Prop := Declarations strict ts ss []

end

end Lox.Syntax
