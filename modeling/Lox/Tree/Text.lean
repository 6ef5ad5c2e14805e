import Lox.Number.Text
import Lox.Tree

/-!
# Trees as text

Two forms are in use. The parenthesized form writes every node as a list with its operator in
front: `-123 * (45.67)` becomes `(* (- 123) (group 45.67))`. Reverse Polish form writes operands
before their operator and needs no parentheses: `(1 + 2) * -4` becomes `1 2 + 4 ~ *`, where the
tilde tells negation from subtraction.
-/

namespace Lox

/-- A constant, as a program would print it. -/
def Constant.written : Constant → String
  | nil => "nil"
  | bool value => if value then "true" else "false"
  | number value => Number.text value
  | text value => value

/-- Each text after a blank. -/
def spaced (texts : List String) : String := String.join (texts.map (" " ++ ·))

namespace Expr

mutual

/-- The parenthesized form of an expression. -/
def parenthesized : Expr → String
  | constant value => value.written
  | grouping inner => "(group " ++ parenthesized inner ++ ")"
  | unary op right => "(" ++ op.lexeme ++ " " ++ parenthesized right ++ ")"
  | binary left op right =>
    "(" ++ op.lexeme ++ " " ++ parenthesized left ++ " " ++ parenthesized right ++ ")"
  | logical left op right =>
    "(" ++ op.lexeme ++ " " ++ parenthesized left ++ " " ++ parenthesized right ++ ")"
  | var _ name => name.lexeme
  | assign _ name value => "(= " ++ name.lexeme ++ " " ++ parenthesized value ++ ")"
  | call callee _ arguments =>
    "(call " ++ parenthesized callee ++ spaced (parenthesizedAll arguments) ++ ")"
  | get object name => "(. " ++ parenthesized object ++ " " ++ name.lexeme ++ ")"
  | set object name value =>
    "(= (. " ++ parenthesized object ++ " " ++ name.lexeme ++ ") " ++ parenthesized value ++ ")"
  | this _ _ => "this"
  | super _ _ method => "(super " ++ method.lexeme ++ ")"
termination_by structural e => e

/-- The parenthesized forms of several expressions. -/
def parenthesizedAll : List Expr → List String
  | [] => []
  | e :: es => parenthesized e :: parenthesizedAll es
termination_by structural es => es

end

@[simp] theorem parenthesizedAll_eq_map (es : List Expr) :
    parenthesizedAll es = es.map parenthesized := by
  induction es with
  | nil => rfl
  | cons e es ih => simp [parenthesizedAll, ih]

/-- The sign of a prefix operator in reverse Polish form. -/
def polishSign (op : Token) : String := if op.kind = .minus then "~" else op.lexeme

mutual

/-- The reverse Polish form of an expression. -/
def reversePolish : Expr → String
  | constant value => value.written
  | grouping inner => reversePolish inner
  | unary op right => reversePolish right ++ " " ++ polishSign op
  | binary left op right => reversePolish left ++ " " ++ reversePolish right ++ " " ++ op.lexeme
  | logical left op right => reversePolish left ++ " " ++ reversePolish right ++ " " ++ op.lexeme
  | var _ name => name.lexeme
  | assign _ name value => reversePolish value ++ " " ++ name.lexeme ++ " ="
  | call callee _ arguments =>
    " ".intercalate
      (reversePolishAll arguments ++ [reversePolish callee, s!"call/{arguments.length}"])
  | get object name => reversePolish object ++ " ." ++ name.lexeme
  | set object name value =>
    reversePolish object ++ " " ++ reversePolish value ++ " ." ++ name.lexeme ++ " ="
  | this _ _ => "this"
  | super _ _ method => "(super " ++ method.lexeme ++ ")"
termination_by structural e => e

/-- The reverse Polish forms of several expressions. -/
def reversePolishAll : List Expr → List String
  | [] => []
  | e :: es => reversePolish e :: reversePolishAll es
termination_by structural es => es

end

@[simp] theorem reversePolishAll_eq_map (es : List Expr) :
    reversePolishAll es = es.map reversePolish := by
  induction es with
  | nil => rfl
  | cons e es ih => simp [reversePolishAll, ih]

end Expr

mutual

/-- The parenthesized form of a statement. -/
def Stmt.parenthesized : Stmt → String
  | .expression expr => "(; " ++ expr.parenthesized ++ ")"
  | .print expr => "(print " ++ expr.parenthesized ++ ")"
  | .varDecl name none => "(var " ++ name.lexeme ++ ")"
  | .varDecl name (some value) =>
    "(var " ++ name.lexeme ++ " = " ++ value.parenthesized ++ ")"
  | .block statements => "(block" ++ spaced (Stmt.parenthesizedAll statements) ++ ")"
  | .branch condition thenBranch none =>
    "(if " ++ condition.parenthesized ++ " " ++ thenBranch.parenthesized ++ ")"
  | .branch condition thenBranch (some elseBranch) =>
    "(if-else " ++ condition.parenthesized ++ " " ++ thenBranch.parenthesized ++ " "
      ++ elseBranch.parenthesized ++ ")"
  | .loop condition body =>
    "(while " ++ condition.parenthesized ++ " " ++ body.parenthesized ++ ")"
  | .funDecl function => function.parenthesized
  | .ret _ none => "(return)"
  | .ret _ (some value) => "(return " ++ value.parenthesized ++ ")"
  | .classDecl name none methods =>
    "(class " ++ name.lexeme ++ spaced (FunctionDecl.parenthesizedAll methods) ++ ")"
  | .classDecl name (some superclass) methods =>
    "(class " ++ name.lexeme ++ " < " ++ superclass.parenthesized
      ++ spaced (FunctionDecl.parenthesizedAll methods) ++ ")"
termination_by structural s => s

/-- The parenthesized forms of several statements. -/
def Stmt.parenthesizedAll : List Stmt → List String
  | [] => []
  | s :: rest => s.parenthesized :: Stmt.parenthesizedAll rest
termination_by structural ss => ss

/-- The parenthesized form of a function or a method. -/
def FunctionDecl.parenthesized : FunctionDecl → String
  | ⟨name, params, body⟩ =>
    "(fun " ++ name.lexeme ++ "(" ++ " ".intercalate (params.map Token.lexeme) ++ ") "
      ++ " ".intercalate (Stmt.parenthesizedAll body) ++ ")"
termination_by structural f => f

/-- The parenthesized forms of several methods. -/
def FunctionDecl.parenthesizedAll : List FunctionDecl → List String
  | [] => []
  | f :: rest => f.parenthesized :: FunctionDecl.parenthesizedAll rest
termination_by structural fs => fs

end

@[simp] theorem Stmt.parenthesizedAll_eq_map (ss : List Stmt) :
    Stmt.parenthesizedAll ss = ss.map Stmt.parenthesized := by
  induction ss with
  | nil => rfl
  | cons s ss ih => simp [Stmt.parenthesizedAll, ih]

@[simp] theorem FunctionDecl.parenthesizedAll_eq_map (fs : List FunctionDecl) :
    FunctionDecl.parenthesizedAll fs = fs.map FunctionDecl.parenthesized := by
  induction fs with
  | nil => rfl
  | cons f fs ih => simp [FunctionDecl.parenthesizedAll, ih]

end Lox
