import Lox.Bindings
import Lox.Number.Text
import Lox.Tree

/-!
# Values

A value is a plain datum, a piece of code or an object. Scopes and fields change while a program
runs, so values refer to them by number and the heap holds them. Everything else about a value
never changes and stands in the value itself: the code of a function, the methods of a class and
of all its ancestors, the class of an object.

Functions, classes and objects are equal only to themselves. Each gets a number of its own when
it comes into being, and equality compares these numbers.

A function keeps what is visible around its declaration. The machine keeps a list of scopes, but
nothing in this module depends on that: `E` stands for whatever is kept.
-/

namespace Lox

/-- The number of a scope in the heap. -/
abbrev ScopeId := Nat

/-- The scopes that are visible at a place, innermost first. -/
abbrev Env := List ScopeId

/-- What the host provides. -/
inductive Builtin where
  | clock
deriving DecidableEq, Repr

/-- A function with what is visible around its declaration. -/
structure Closure (E : Type := Env) where
  decl : FunctionDecl
  env : E
  isInitializer : Bool

section

variable {E : Type}

namespace Closure

def name (f : Closure E) : String := f.decl.name.lexeme

def arity (f : Closure E) : Nat := f.decl.params.length

end Closure

/-- What one class declaration contributes. -/
structure ClassLayer (E : Type := Env) where
  id : Nat
  name : String
  methods : Bindings (Closure E)

/-- A class: its own layer, and those of its ancestors from the nearest on. -/
structure Class (E : Type := Env) where
  own : ClassLayer E
  ancestors : List (ClassLayer E)

namespace Class

def name (c : Class E) : String := c.own.name

/-- The layers in which methods are searched. -/
def lineage (c : Class E) : List (ClassLayer E) := c.own :: c.ancestors

/-- The method of the nearest layer that has the name. -/
def method? (c : Class E) (name : String) : Option (Closure E) :=
  c.lineage.findSome? (·.methods.get? name)

/-- The class it inherits from. -/
def superclass? (c : Class E) : Option (Class E) :=
  match c.ancestors with
  | [] => none
  | layer :: rest => some ⟨layer, rest⟩

/-- A class is called with the arguments of its initializer. -/
def arity (c : Class E) : Nat := ((c.method? "init").map Closure.arity).getD 0

end Class

/-- An object: the number of its fields in the heap, and its class. -/
structure Object (E : Type := Env) where
  id : Nat
  class_ : Class E

inductive Value (E : Type := Env) where
  | nil
  | bool (value : Bool)
  | number (value : Float)
  | text (value : String)
  | builtin (function : Builtin)
  | function (id : Nat) (code : Closure E)
  | class_ (value : Class E)
  | object (value : Object E)

namespace Value

/-- The value of a constant. -/
def ofConstant : Constant → Value E
  | .nil => .nil
  | .bool value => .bool value
  | .number value => .number value
  | .text value => .text value

/-- Only `nil` and `false` count as false. -/
def truthy : Value E → Bool
  | nil => false
  | bool value => value
  | _ => true

/-- Equality never fails: values of different sorts differ. -/
def equals : Value E → Value E → Bool
  | nil, nil => true
  | bool a, bool b => a == b
  | number a, number b => a == b
  | text a, text b => a == b
  | builtin a, builtin b => a == b
  | function a _, function b _ => a == b
  | class_ a, class_ b => a.own.id == b.own.id
  | object a, object b => a.id == b.id
  | _, _ => false

/-- The number of arguments with which a value is called, if it can be called. -/
def arity? : Value E → Option Nat
  | builtin .clock => some 0
  | function _ code => some code.arity
  | class_ value => some value.arity
  | nil | bool _ | number _ | text _ | object _ => none

/-- What a program prints for a value. -/
def shown : Value E → String
  | nil => "nil"
  | bool value => if value then "true" else "false"
  | number value => Number.text value
  | text value => value
  | builtin _ => "<native fn>"
  | function _ code => "<fn " ++ code.name ++ ">"
  | class_ value => value.name
  | object value => value.class_.name ++ " instance"

end Value

end

end Lox
