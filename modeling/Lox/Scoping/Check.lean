import Lox.Scoping.Context
import Std.Data.TreeMap

/-!
# The check of scopes

The check walks a program once, in the order of the source, and lists what it finds: for each
node that looks a name up, the number of scopes to the one that has the name, and every offence.
It never stops early.

What a statement finds depends on the context before it. What it changes for the statements
after it is only that the names it declares are ready (`Stmt.declared`).
-/

namespace Lox

open Scoping

/-! ## Expressions -/

mutual

/-- What an expression finds. The value of a property assignment comes before its object. -/
def Expr.findings (ctx : Context) : Expr → List Finding
  | .constant _ => []
  | .grouping inner => inner.findings ctx
  | .unary _ right => right.findings ctx
  | .binary left _ right => left.findings ctx ++ right.findings ctx
  | .logical left _ right => left.findings ctx ++ right.findings ctx
  | .var id name => ctx.earlyRead name ++ ctx.lookup id name
  | .assign id name value => value.findings ctx ++ ctx.lookup id name
  | .call callee _ arguments => callee.findings ctx ++ Expr.findingsAll ctx arguments
  | .get object _ => object.findings ctx
  | .set object _ value => value.findings ctx ++ object.findings ctx
  | .this id keyword =>
    if ctx.class_ = .outside then [.offence ⟨keyword, .thisOutside⟩] else ctx.lookup id keyword
  | .super id keyword _ => ctx.misplacedSuper keyword ++ ctx.lookup id keyword
termination_by structural e => e

/-- What several expressions find. -/
def Expr.findingsAll (ctx : Context) : List Expr → List Finding
  | [] => []
  | e :: es => e.findings ctx ++ Expr.findingsAll ctx es
termination_by structural es => es

end

/-- What an expression finds that may be absent. -/
def Expr.findings? (ctx : Context) (e : Option Expr) : List Finding :=
  (e.map (Expr.findings ctx)).getD []

/-! ## Statements -/

/-- The names that a statement declares in the scope where it stands. -/
def Stmt.declared : Stmt → List Token
  | .varDecl name _ => [name]
  | .funDecl function => [function.name]
  | .classDecl name _ _ => [name]
  | .branch _ thenBranch none => thenBranch.declared
  | .branch _ thenBranch (some elseBranch) => thenBranch.declared ++ elseBranch.declared
  | .loop _ body => body.declared
  | .expression _ | .print _ | .block _ | .ret _ _ => []

/-- What a return statement does wrong. -/
def Scoping.Context.misplacedReturn (ctx : Context) (keyword : Token) (value : Option Expr) :
    List Finding :=
  (if ctx.function = .outside then [.offence ⟨keyword, .returnOutside⟩] else [])
    ++ (if value.isSome ∧ ctx.function = .initializer then
      [.offence ⟨keyword, .returnFromInitializer⟩] else [])

/-- A class that names itself as its superclass. -/
def Scoping.selfInheritance (name : Token) : Expr → List Finding
  | .var _ superclass =>
    if superclass.lexeme = name.lexeme then [.offence ⟨superclass, .inheritsItself⟩] else []
  | _ => []

/-- What parameters find: each shares the scope with those before it. -/
def Scoping.Context.params (ctx : Context) : List Token → List Finding
  | [] => []
  | p :: rest => ctx.redeclaration p ++ (ctx.define p).params rest

/-- A method called `init` initializes instances. -/
def Scoping.methodContext (name : Token) : FunctionContext :=
  if name.lexeme = "init" then .initializer else .method

/-- The context of the methods of a class: a scope with `super` for a subclass, and inside it one
with `this`. -/
def Scoping.Context.methods (ctx : Context) (isSubclass : Bool) : Context :=
  let outer := if isSubclass then ctx.enter.add "super" true else ctx
  outer.enter.add "this" true

mutual

/-- What a statement finds. -/
def Stmt.findings (ctx : Context) : Stmt → List Finding
  | .expression expr => expr.findings ctx
  | .print expr => expr.findings ctx
  | .varDecl name value =>
    ctx.redeclaration name ++ Expr.findings? (ctx.declare name) value
  | .block statements => Stmt.findingsAll ctx.enter statements
  | .branch condition thenBranch none =>
    condition.findings ctx ++ thenBranch.findings ctx
  | .branch condition thenBranch (some elseBranch) =>
    condition.findings ctx ++ thenBranch.findings ctx
      ++ elseBranch.findings (ctx.defineAll thenBranch.declared)
  | .loop condition body => condition.findings ctx ++ body.findings ctx
  | .funDecl function =>
    ctx.redeclaration function.name
      ++ function.findings (ctx.define function.name) .function
  | .ret keyword value => ctx.misplacedReturn keyword value ++ Expr.findings? ctx value
  | .classDecl name none methods =>
    let inner := { ctx.define name with class_ := .plain }
    ctx.redeclaration name ++ FunctionDecl.findingsAll (inner.methods false) methods
  | .classDecl name (some superclass) methods =>
    let inner := { ctx.define name with class_ := .subclass }
    ctx.redeclaration name ++ selfInheritance name superclass ++ superclass.findings inner
      ++ FunctionDecl.findingsAll (inner.methods true) methods
termination_by structural s => s

/-- What statements find that follow one another. -/
def Stmt.findingsAll (ctx : Context) : List Stmt → List Finding
  | [] => []
  | s :: rest => s.findings ctx ++ Stmt.findingsAll (ctx.defineAll s.declared) rest
termination_by structural ss => ss

/-- What a function finds; its parameters and its body share one scope. -/
def FunctionDecl.findings (ctx : Context) (kind : FunctionContext) :
    FunctionDecl → List Finding
  | ⟨_, params, body⟩ =>
    let inner := { ctx.enter with function := kind }
    inner.params params ++ Stmt.findingsAll (inner.defineAll params) body
termination_by structural f => f

/-- What the methods of a class find. -/
def FunctionDecl.findingsAll (ctx : Context) : List FunctionDecl → List Finding
  | [] => []
  | f :: rest =>
    f.findings ctx (methodContext f.name) ++ FunctionDecl.findingsAll ctx rest
termination_by structural fs => fs

end

namespace Scoping

/-! ## Whole programs -/

/-- Everything that a program finds. -/
def check (statements : List Stmt) : List Finding := Stmt.findingsAll Context.top statements

/-- The offences among findings. -/
def offences (findings : List Finding) : List ScopeError :=
  findings.filterMap fun
    | .offence error => some error
    | .distance _ _ => none

/-- How far each node is from the scope of its name. A node without an entry means a global. -/
abbrev Distances := Std.TreeMap NodeId Nat

/-- Files the distances among findings; a later one for the same node wins. -/
def Distances.file (table : Distances) (findings : List Finding) : Distances :=
  findings.foldl
    (fun table finding =>
      match finding with
      | .distance id hops => table.insert id hops
      | .offence _ => table)
    table

end Scoping

end Lox
