import Lox.Report
import Lox.Tree

/-!
# Static scopes

A context says what is known at one place of a program before it runs: the scopes around the
place, innermost first, and whether the place lies in a function and in a class. A scope lists
its names with the latest first. A name is *ready* once its declaration is complete; between the
two it may not be read.

The outermost level of a program has no scope: its names are global and are found when the
program runs.
-/

namespace Lox

/-- What a program may not do with names, whatever its input. -/
inductive ScopeFault where
  | redeclared
  | readInInitializer
  | returnOutside
  | returnFromInitializer
  | thisOutside
  | superOutside
  | superWithoutSuperclass
  | inheritsItself
deriving DecidableEq, Repr

/-- The wording of a fault. -/
def ScopeFault.message : ScopeFault → String
  | redeclared => "Already a variable with this name in this scope."
  | readInInitializer => "Can't read local variable in its own initializer."
  | returnOutside => "Can't return from top-level code."
  | returnFromInitializer => "Can't return a value from an initializer."
  | thisOutside => "Can't use 'this' outside of a class."
  | superOutside => "Can't use 'super' outside of a class."
  | superWithoutSuperclass => "Can't use 'super' in a class with no superclass."
  | inheritsItself => "A class can't inherit from itself."

/-- A fault and the token that commits it. -/
structure ScopeError where
  site : Token
  fault : ScopeFault
deriving DecidableEq

/-- The error as shown. -/
def ScopeError.report (e : ScopeError) : Report := .scopingAt e.site e.fault.message

namespace Scoping

/-- The innermost function around a place. -/
inductive FunctionContext where
  | outside
  | function
  | initializer
  | method
deriving DecidableEq, Repr

/-- The innermost class around a place. -/
inductive ClassContext where
  | outside
  | plain
  | subclass
deriving DecidableEq, Repr

/-- The names of a scope, latest first, and whether each is ready. -/
abbrev StaticScope := List (String × Bool)

/-- What surrounds a place in a program. -/
structure Context where
  scopes : List StaticScope
  function : FunctionContext
  class_ : ClassContext
deriving DecidableEq

/-- What the check of scopes finds out: how many scopes lie between a node and the scope of its
name, or an offence. -/
inductive Finding where
  | distance (id : NodeId) (hops : Nat)
  | offence (error : ScopeError)
deriving DecidableEq

namespace Context

/-- Outside everything. -/
def top : Context := ⟨[], .outside, .outside⟩

/-- Inside a new scope. -/
def enter (ctx : Context) : Context := { ctx with scopes := [] :: ctx.scopes }

/-- Adds a name to the innermost scope. Global names are not kept. -/
def add (ctx : Context) (name : String) (ready : Bool) : Context :=
  match ctx.scopes with
  | [] => ctx
  | scope :: outer => { ctx with scopes := ((name, ready) :: scope) :: outer }

/-- From here on the name is declared and not ready. -/
def declare (ctx : Context) (name : Token) : Context := ctx.add name.lexeme false

/-- From here on the name is ready. -/
def define (ctx : Context) (name : Token) : Context := ctx.add name.lexeme true

/-- From here on the names are ready. -/
def defineAll (ctx : Context) (names : List Token) : Context := names.foldl define ctx

/-- What the innermost scope says about a name. -/
def innermost? (ctx : Context) (name : Token) : Option Bool :=
  ctx.scopes.head?.bind (·.lookup name.lexeme)

/-- The number of scopes between a place and the innermost one that has the name. -/
def hops? (ctx : Context) (name : String) : Option Nat :=
  ctx.scopes.findIdx? fun scope => (scope.lookup name).isSome

/-! ## Findings at one place -/

/-- A look-up of a name by a node. -/
def lookup (ctx : Context) (id : NodeId) (name : Token) : List Finding :=
  (ctx.hops? name.lexeme).toList.map (.distance id)

/-- A second declaration of a name in one scope. -/
def redeclaration (ctx : Context) (name : Token) : List Finding :=
  if (ctx.innermost? name).isSome then [.offence ⟨name, .redeclared⟩] else []

/-- A read of a name that is not ready. -/
def earlyRead (ctx : Context) (name : Token) : List Finding :=
  if ctx.innermost? name = some false then [.offence ⟨name, .readInInitializer⟩] else []

/-- A misplaced `super`. -/
def misplacedSuper (ctx : Context) (keyword : Token) : List Finding :=
  match ctx.class_ with
  | .outside => [.offence ⟨keyword, .superOutside⟩]
  | .plain => [.offence ⟨keyword, .superWithoutSuperclass⟩]
  | .subclass => []

end Context

end Scoping

end Lox
