import Lox.Grammar.Statement

/-!
# Trees without node ids

Two trees are equal up to node ids if they are equal after every id has been set to zero.
-/

namespace Lox

mutual

/-- An expression with every id set to zero. -/
def Expr.blank : Expr → Expr
  | .constant value => .constant value
  | .grouping inner => .grouping inner.blank
  | .unary op right => .unary op right.blank
  | .binary left op right => .binary left.blank op right.blank
  | .logical left op right => .logical left.blank op right.blank
  | .var _ name => .var 0 name
  | .assign _ name value => .assign 0 name value.blank
  | .call callee paren arguments => .call callee.blank paren (Expr.blankAll arguments)
  | .get object name => .get object.blank name
  | .set object name value => .set object.blank name value.blank
  | .this _ keyword => .this 0 keyword
  | .super _ keyword method => .super 0 keyword method
termination_by structural e => e

/-- Several expressions with every id set to zero. -/
def Expr.blankAll : List Expr → List Expr
  | [] => []
  | e :: es => e.blank :: Expr.blankAll es
termination_by structural es => es

end

mutual

/-- A statement with every id set to zero. -/
def Stmt.blank : Stmt → Stmt
  | .expression expr => .expression expr.blank
  | .print expr => .print expr.blank
  | .varDecl name value => .varDecl name (value.map Expr.blank)
  | .block statements => .block (Stmt.blankAll statements)
  | .branch condition thenBranch none => .branch condition.blank thenBranch.blank none
  | .branch condition thenBranch (some elseBranch) =>
    .branch condition.blank thenBranch.blank (some elseBranch.blank)
  | .loop condition body => .loop condition.blank body.blank
  | .funDecl function => .funDecl function.blank
  | .ret keyword value => .ret keyword (value.map Expr.blank)
  | .classDecl name superclass methods =>
    .classDecl name (superclass.map Expr.blank) (FunctionDecl.blankAll methods)
termination_by structural s => s

/-- Several statements with every id set to zero. -/
def Stmt.blankAll : List Stmt → List Stmt
  | [] => []
  | s :: rest => s.blank :: Stmt.blankAll rest
termination_by structural ss => ss

/-- A function with every id set to zero. -/
def FunctionDecl.blank : FunctionDecl → FunctionDecl
  | ⟨name, params, body⟩ => ⟨name, params, Stmt.blankAll body⟩
termination_by structural f => f

/-- Several functions with every id set to zero. -/
def FunctionDecl.blankAll : List FunctionDecl → List FunctionDecl
  | [] => []
  | f :: rest => f.blank :: FunctionDecl.blankAll rest
termination_by structural fs => fs

end

theorem Expr.length_blankAll (es : List Expr) : (Expr.blankAll es).length = es.length := by
  induction es with
  | nil => rfl
  | cons e es ih => rw [Expr.blankAll, List.length_cons, ih, List.length_cons]

theorem Expr.eq_var_of_blank {e : Expr} {name : Token} (h : e.blank = .var 0 name) :
    ∃ id, e = .var id name := by
  cases e <;> cases h
  exact ⟨_, rfl⟩

theorem Expr.eq_get_of_blank {e object : Expr} {name : Token} (h : e.blank = .get object name) :
    ∃ inner, e = .get inner name ∧ inner.blank = object := by
  cases e <;> cases h
  exact ⟨_, rfl, rfl⟩

/-- The loop that stands for a `for` loop. -/
theorem Stmt.blank_forLoop (initializer : Option Stmt) (condition increment : Option Expr)
    (body : Stmt) :
    (Stmt.forLoop initializer condition increment body).blank =
      .forLoop (initializer.map Stmt.blank) (condition.map Expr.blank)
        (increment.map Expr.blank) body.blank := by
  cases initializer <;> cases condition <;> cases increment <;> rfl

end Lox
