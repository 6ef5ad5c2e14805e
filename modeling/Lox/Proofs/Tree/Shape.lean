import Lox.Scoping.Check

/-!
# Shapes of trees

Two things about a tree do not depend on where it stands: the names that it mentions
(`Stmt.mentions`, in the order in which the check of scopes comes to them), and whether it has
the shape that the grammar gives to programs (`Stmt.Plain`): declarations stand only in programs,
blocks and bodies, and a superclass is a name.
-/

namespace Lox

/-! ## Names -/

/-- A name in a tree: the kind of token that it has to be, and the id of its node if the node
looks it up. -/
structure Mention where
  id? : Option NodeId
  kind : Kind
  token : Token

/-- A name that is declared. -/
def Mention.declared (name : Token) : Mention := ⟨none, .identifier, name⟩

mutual

/-- The names in an expression. -/
def Expr.mentions : Expr → List Mention
  | .constant _ => []
  | .grouping inner => inner.mentions
  | .unary _ right => right.mentions
  | .binary left _ right => left.mentions ++ right.mentions
  | .logical left _ right => left.mentions ++ right.mentions
  | .var id name => [⟨some id, .identifier, name⟩]
  | .assign id name value => value.mentions ++ [⟨some id, .identifier, name⟩]
  | .call callee _ arguments => callee.mentions ++ Expr.mentionsAll arguments
  | .get object _ => object.mentions
  | .set object _ value => value.mentions ++ object.mentions
  | .this id keyword => [⟨some id, .thisWord, keyword⟩]
  | .super id keyword _ => [⟨some id, .superWord, keyword⟩]
termination_by structural e => e

/-- The names in several expressions. -/
def Expr.mentionsAll : List Expr → List Mention
  | [] => []
  | e :: es => e.mentions ++ Expr.mentionsAll es
termination_by structural es => es

end

/-- The names in an expression that may be absent. -/
def Expr.mentions? (e : Option Expr) : List Mention := (e.map Expr.mentions).getD []

mutual

/-- The names in a statement. -/
def Stmt.mentions : Stmt → List Mention
  | .expression expr => expr.mentions
  | .print expr => expr.mentions
  | .varDecl name value => .declared name :: Expr.mentions? value
  | .block statements => Stmt.mentionsAll statements
  | .branch condition thenBranch none => condition.mentions ++ thenBranch.mentions
  | .branch condition thenBranch (some elseBranch) =>
    condition.mentions ++ thenBranch.mentions ++ elseBranch.mentions
  | .loop condition body => condition.mentions ++ body.mentions
  | .funDecl function => .declared function.name :: function.mentions
  | .ret _ value => Expr.mentions? value
  | .classDecl name none methods => .declared name :: FunctionDecl.mentionsAll methods
  | .classDecl name (some superclass) methods =>
    .declared name :: (superclass.mentions ++ FunctionDecl.mentionsAll methods)
termination_by structural s => s

/-- The names in several statements. -/
def Stmt.mentionsAll : List Stmt → List Mention
  | [] => []
  | s :: rest => s.mentions ++ Stmt.mentionsAll rest
termination_by structural ss => ss

/-- The names in a function, except its own. -/
def FunctionDecl.mentions : FunctionDecl → List Mention
  | ⟨_, params, body⟩ => params.map .declared ++ Stmt.mentionsAll body
termination_by structural f => f

/-- The names in several functions. -/
def FunctionDecl.mentionsAll : List FunctionDecl → List Mention
  | [] => []
  | f :: rest => f.mentions ++ FunctionDecl.mentionsAll rest
termination_by structural fs => fs

end

/-! ## Plain statements -/

mutual

/-- Branches and loop bodies declare nothing, and superclasses are names. -/
def Stmt.Plain : Stmt → Prop
  | .expression _ | .print _ | .varDecl _ _ | .ret _ _ => True
  | .block statements => Stmt.PlainAll statements
  | .branch _ thenBranch none => thenBranch.Plain ∧ thenBranch.declared = []
  | .branch _ thenBranch (some elseBranch) =>
    (thenBranch.Plain ∧ thenBranch.declared = []) ∧ elseBranch.Plain ∧ elseBranch.declared = []
  | .loop _ body => body.Plain ∧ body.declared = []
  | .funDecl function => function.Plain
  | .classDecl _ none methods => FunctionDecl.PlainAll methods
  | .classDecl _ (some superclass) methods =>
    (∃ id name, superclass = .var id name) ∧ FunctionDecl.PlainAll methods
termination_by structural s => s

/-- Several statements are plain. -/
def Stmt.PlainAll : List Stmt → Prop
  | [] => True
  | s :: rest => s.Plain ∧ Stmt.PlainAll rest
termination_by structural ss => ss

/-- The body of a function is plain. -/
def FunctionDecl.Plain : FunctionDecl → Prop
  | ⟨_, _, body⟩ => Stmt.PlainAll body
termination_by structural f => f

/-- Several functions are plain. -/
def FunctionDecl.PlainAll : List FunctionDecl → Prop
  | [] => True
  | f :: rest => f.Plain ∧ FunctionDecl.PlainAll rest
termination_by structural fs => fs

end

end Lox
