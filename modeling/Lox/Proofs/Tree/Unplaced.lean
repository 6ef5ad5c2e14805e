import Lox.Proofs.Grammar.Written
import Lox.Proofs.Number.Reading
import Lox.Proofs.Token.Fixed
import Lox.Proofs.Tree.Alike

/-!
# Trees without places

What a program prints of a tree shows neither ids nor lines, and the other parts of a token are
known from its text alone if the tree is *legible*: its operators, keywords and names are what their
texts say, its numbers are finite and without sign, and it has no strings (`Part.Legible`). So two
legible trees that print alike can only be expected to be equal without their ids and lines
(`Expr.unplaced`, `Stmt.unplaced`).
-/

namespace Lox

/-! ## Ids and lines -/

mutual

/-- An expression with every id and every line set to zero. -/
def Expr.unplaced : Expr → Expr
  | .constant value => .constant value
  | .grouping inner => .grouping inner.unplaced
  | .unary op right => .unary op.unplaced right.unplaced
  | .binary left op right => .binary left.unplaced op.unplaced right.unplaced
  | .logical left op right => .logical left.unplaced op.unplaced right.unplaced
  | .var _ name => .var 0 name.unplaced
  | .assign _ name value => .assign 0 name.unplaced value.unplaced
  | .call callee paren arguments =>
    .call callee.unplaced paren.unplaced (Expr.unplacedAll arguments)
  | .get object name => .get object.unplaced name.unplaced
  | .set object name value => .set object.unplaced name.unplaced value.unplaced
  | .this _ keyword => .this 0 keyword.unplaced
  | .super _ keyword method => .super 0 keyword.unplaced method.unplaced
termination_by structural e => e

/-- Several expressions with every id and every line set to zero. -/
def Expr.unplacedAll : List Expr → List Expr
  | [] => []
  | e :: es => e.unplaced :: Expr.unplacedAll es
termination_by structural es => es

end

mutual

/-- A statement with every id and every line set to zero. -/
def Stmt.unplaced : Stmt → Stmt
  | .expression expr => .expression expr.unplaced
  | .print expr => .print expr.unplaced
  | .varDecl name value => .varDecl name.unplaced (value.map Expr.unplaced)
  | .block statements => .block (Stmt.unplacedAll statements)
  | .branch condition thenBranch none => .branch condition.unplaced thenBranch.unplaced none
  | .branch condition thenBranch (some elseBranch) =>
    .branch condition.unplaced thenBranch.unplaced (some elseBranch.unplaced)
  | .loop condition body => .loop condition.unplaced body.unplaced
  | .funDecl function => .funDecl function.unplaced
  | .ret keyword value => .ret keyword.unplaced (value.map Expr.unplaced)
  | .classDecl name superclass methods =>
    .classDecl name.unplaced (superclass.map Expr.unplaced) (FunctionDecl.unplacedAll methods)
termination_by structural s => s

/-- Several statements with every id and every line set to zero. -/
def Stmt.unplacedAll : List Stmt → List Stmt
  | [] => []
  | s :: rest => s.unplaced :: Stmt.unplacedAll rest
termination_by structural ss => ss

/-- A function with every id and every line set to zero. -/
def FunctionDecl.unplaced : FunctionDecl → FunctionDecl
  | ⟨name, params, body⟩ => ⟨name.unplaced, params.map Token.unplaced, Stmt.unplacedAll body⟩
termination_by structural f => f

/-- Several functions with every id and every line set to zero. -/
def FunctionDecl.unplacedAll : List FunctionDecl → List FunctionDecl
  | [] => []
  | f :: rest => f.unplaced :: FunctionDecl.unplacedAll rest
termination_by structural fs => fs

end

theorem Expr.unplacedAll_eq_map (es : List Expr) : unplacedAll es = es.map unplaced := by
  induction es with
  | nil => rfl
  | cons e es ih => rw [unplacedAll, ih, List.map_cons]

theorem Stmt.unplacedAll_eq_map (ss : List Stmt) : unplacedAll ss = ss.map unplaced := by
  induction ss with
  | nil => rfl
  | cons s ss ih => rw [unplacedAll, ih, List.map_cons]

theorem FunctionDecl.unplacedAll_eq_map (fs : List FunctionDecl) :
    unplacedAll fs = fs.map unplaced := by
  induction fs with
  | nil => rfl
  | cons f fs ih => rw [unplacedAll, ih, List.map_cons]

/-! ## Parentheses -/

mutual

/-- An expression without the parentheses that only group. -/
def Expr.ungrouped : Expr → Expr
  | .constant value => .constant value
  | .grouping inner => inner.ungrouped
  | .unary op right => .unary op right.ungrouped
  | .binary left op right => .binary left.ungrouped op right.ungrouped
  | .logical left op right => .logical left.ungrouped op right.ungrouped
  | .var id name => .var id name
  | .assign id name value => .assign id name value.ungrouped
  | .call callee paren arguments => .call callee.ungrouped paren (Expr.ungroupedAll arguments)
  | .get object name => .get object.ungrouped name
  | .set object name value => .set object.ungrouped name value.ungrouped
  | .this id keyword => .this id keyword
  | .super id keyword method => .super id keyword method
termination_by structural e => e

/-- Several expressions without the parentheses that only group. -/
def Expr.ungroupedAll : List Expr → List Expr
  | [] => []
  | e :: es => e.ungrouped :: Expr.ungroupedAll es
termination_by structural es => es

end

theorem Expr.ungroupedAll_eq_map (es : List Expr) : ungroupedAll es = es.map ungrouped := by
  induction es with
  | nil => rfl
  | cons e es ih => rw [ungroupedAll, ih, List.map_cons]

/-! ## Legible trees -/

/-- Everything that the node itself holds is known from what is printed of it. -/
def Expr.IsLegible : Expr → Prop
  | .constant (.number value) => Number.IsPlain value
  | .constant (.text _) => False
  | .constant _ | .grouping _ => True
  | .unary op _ => op.Is .bang ∨ op.Is .minus
  | .binary _ op _ => ∃ k ∈ Grammar.binaryOperators, op.Is k
  | .logical _ op _ => op.Is .orWord ∨ op.Is .andWord
  | .var _ name | .assign _ name _ | .get _ name | .set _ name _ => name.IsIdentifier
  | .call _ paren _ => paren.Is .rightParen
  | .this _ keyword => keyword.Is .thisWord
  | .super _ keyword method => keyword.Is .superWord ∧ method.IsIdentifier

namespace Part

/-- Everything that the part itself holds is known from what is printed of it. -/
def IsLegible : Part → Prop
  | program _ => True
  | stmt (.varDecl name _) | stmt (.classDecl name _ _) | param name => name.IsIdentifier
  | stmt (.ret keyword _) => keyword.Is .returnWord
  | stmt _ => True
  | function _ f => f.name.IsIdentifier
  | expr e => e.IsLegible

/-- Everything in the part is known from what is printed of it. -/
inductive Legible : Part → Prop
  | node {part : Part} :
      part.IsLegible → (∀ inner ∈ part.parts, Legible inner) → Legible part

namespace Legible

variable {part root : Part} {trail : Trail} {e : Expr}

theorem own (h : part.Legible) : part.IsLegible := by
  cases h with
  | node hown _ => exact hown

theorem inner (h : root.Legible) (hp : part ∈ root.parts) : part.Legible := by
  cases h with
  | node _ hparts => exact hparts part hp

theorem of_reaches (h : root.Legible) (hr : Reaches root trail part) : part.Legible := by
  induction hr with
  | here => exact h
  | down _ hi ih => exact ih.inner (List.mem_of_getElem? hi)

/-- An induction over the nodes of a legible expression. -/
theorem expr_induction {motive : Expr → Prop}
    (step : ∀ e : Expr, e.IsLegible → (∀ inner ∈ e.parts, motive inner) → motive e)
    (h : (expr e).Legible) : motive e := by
  generalize hpart : expr e = part at h
  induction h generalizing e with
  | node hown _ ih =>
    subst hpart
    exact step e hown fun inner hi => ih _ (List.mem_map_of_mem hi) rfl

end Legible

theorem isLegible_blank (part : Part) : part.blank.IsLegible ↔ part.IsLegible := by
  cases part with
  | program statements | param name => exact Iff.rfl
  | function isMethod f =>
    cases f
    exact Iff.rfl
  | expr e => cases e <;> exact Iff.rfl
  | stmt s =>
    cases s with
    | branch condition thenBranch elseBranch => cases elseBranch <;> exact Iff.rfl
    | _ => exact Iff.rfl

/-- Whether a tree is legible does not depend on the ids. -/
theorem Legible.of_blank {part : Part} (h : part.blank.Legible) : part.Legible := by
  generalize hb : part.blank = other at h
  induction h generalizing part with
  | node hown _ ih =>
    subst hb
    rw [parts_blank] at ih
    refine .node ((isLegible_blank part).1 hown) fun inner hi => ?_
    exact ih inner.blank (List.mem_map_of_mem hi) rfl

end Part

end Lox
