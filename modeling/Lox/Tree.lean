import Lox.Token

/-!
# Programs as trees

Expressions and statements as the grammar builds them. The trees keep the tokens that errors may
have to point at. The four nodes that look a name up carry an id, under which the check of
scopes files what it finds out about them.

There is no tree for a `for` loop: the grammar writes it with blocks and `while` loops.
-/

namespace Lox

/-- The id of a node that looks a name up. -/
abbrev NodeId := Nat

/-- A value written in the program. -/
inductive Constant where
  | nil
  | bool (value : Bool)
  | number (value : Float)
  | text (value : String)
deriving DecidableEq

inductive Expr where
  | constant (value : Constant)
  | grouping (inner : Expr)
  | unary (operator : Token) (right : Expr)
  | binary (left : Expr) (operator : Token) (right : Expr)
  | logical (left : Expr) (operator : Token) (right : Expr)
  | var (id : NodeId) (name : Token)
  | assign (id : NodeId) (name : Token) (value : Expr)
  /-- The token is the closing parenthesis. -/
  | call (callee : Expr) (paren : Token) (arguments : List Expr)
  | get (object : Expr) (name : Token)
  | set (object : Expr) (name : Token) (value : Expr)
  | this (id : NodeId) (keyword : Token)
  | super (id : NodeId) (keyword : Token) (method : Token)

mutual

inductive Stmt where
  | expression (expr : Expr)
  | print (expr : Expr)
  | varDecl (name : Token) (initializer : Option Expr)
  | block (statements : List Stmt)
  | branch (condition : Expr) (thenBranch : Stmt) (elseBranch : Option Stmt)
  | loop (condition : Expr) (body : Stmt)
  | funDecl (function : FunctionDecl)
  | ret (keyword : Token) (value : Option Expr)
  | classDecl (name : Token) (superclass : Option Expr) (methods : List FunctionDecl)

/-- A function or a method. -/
structure FunctionDecl where
  name : Token
  params : List Token
  body : List Stmt

end

end Lox
