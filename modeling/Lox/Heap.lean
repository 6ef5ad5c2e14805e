import Lox.Value

/-!
# The heap

The heap holds what changes while a program runs: the bindings of every scope and the fields of
every object. Both only ever grow, so a number once handed out stays valid, and numbers are
handed out in ascending order.

An environment is a list of scopes. Looking a name up in it walks the list from the innermost
scope on (`get?`, `assign?`); looking it up at a distance goes to one scope only (`getAt?`,
`assignAt?`).
-/

namespace Lox

/-- The scopes and the fields that programs have made so far. -/
structure Heap where
  scopes : Array (Bindings Value)
  fields : Array (Bindings Value)
  nextId : Nat

namespace Heap

/-- Nothing yet. -/
def empty : Heap := ⟨#[], #[], 0⟩

/-- A number for a new function or class. -/
def freshId (h : Heap) : Nat × Heap := (h.nextId, { h with nextId := h.nextId + 1 })

/-! ## Single scopes -/

/-- Makes a scope with the given bindings. -/
def newScope (h : Heap) (bindings : Bindings Value) : ScopeId × Heap :=
  (h.scopes.size, { h with scopes := h.scopes.push bindings })

/-- The value of a name in one scope. -/
def read (h : Heap) (scope : ScopeId) (name : String) : Option Value :=
  h.scopes[scope]?.bind (·.get? name)

/-- The scope has the name. -/
def binds (h : Heap) (scope : ScopeId) (name : String) : Bool := (h.read scope name).isSome

/-- Gives a name a value in one scope, whether or not it is there already. -/
def write (h : Heap) (scope : ScopeId) (name : String) (value : Value) : Heap :=
  { h with scopes := h.scopes.modify scope (·.insert name value) }

/-! ## Environments -/

/-- Makes a scope inside an environment. -/
def nest (h : Heap) (env : Env) (bindings : Bindings Value) : Env × Heap :=
  let (scope, h) := h.newScope bindings
  (scope :: env, h)

/-- Declares a name in the innermost scope. -/
def define (h : Heap) (env : Env) (name : String) (value : Value) : Heap :=
  match env with
  | [] => h
  | scope :: _ => h.write scope name value

/-- The value of a name in the innermost scope that has it. -/
def get? (h : Heap) (env : Env) (name : String) : Option Value :=
  env.findSome? (h.read · name)

/-- The innermost scope that has the name. -/
def scopeOf? (h : Heap) (env : Env) (name : String) : Option ScopeId :=
  env.find? (h.binds · name)

/-- Changes a name in the innermost scope that has it; `none` if there is no such scope. -/
def assign? (h : Heap) (env : Env) (name : String) (value : Value) : Option Heap :=
  (h.scopeOf? env name).map (h.write · name value)

/-- The value of a name in exactly the scope at a distance. -/
def getAt? (h : Heap) (env : Env) (distance : Nat) (name : String) : Option Value :=
  env[distance]?.bind (h.read · name)

/-- The scope at a distance, if it has the name. -/
def scopeAt? (h : Heap) (env : Env) (distance : Nat) (name : String) : Option ScopeId :=
  env[distance]?.filter (h.binds · name)

/-- Changes a name in exactly the scope at a distance; `none` if that scope does not have it. -/
def assignAt? (h : Heap) (env : Env) (distance : Nat) (name : String) (value : Value) :
    Option Heap :=
  (h.scopeAt? env distance name).map (h.write · name value)

/-! ## Objects -/

/-- Makes an object without fields. -/
def newObject (h : Heap) (c : Class) : Object × Heap :=
  (⟨h.fields.size, c⟩, { h with fields := h.fields.push [] })

/-- The fields of an object. -/
def fieldsOf (h : Heap) (o : Object) : Bindings Value := (h.fields[o.id]?).getD []

/-- Gives a field a value, making it if needed. -/
def setField (h : Heap) (o : Object) (name : String) (value : Value) : Heap :=
  { h with fields := h.fields.modify o.id (·.insert name value) }

/-- The method as it runs on an object: inside a new scope where `this` is the object. -/
def bind (h : Heap) (method : Closure) (o : Object) : Closure × Heap :=
  let (env, h) := h.nest method.env [("this", .object o)]
  ({ method with env }, h)

/-- A closure as a value of its own. -/
def newFunction (h : Heap) (code : Closure) : Value × Heap :=
  let (id, h) := h.freshId
  (.function id code, h)

/-- A method bound to an object, as a value. -/
def boundMethod (h : Heap) (method : Closure) (o : Object) : Value × Heap :=
  let (code, h) := h.bind method o
  h.newFunction code

/-! ## Classes -/

/-- The methods of a class; of two with one name the later counts. -/
def methodTable {E : Type} (env : E) (methods : List FunctionDecl) : Bindings (Closure E) :=
  methods.foldl
    (fun b decl => b.insert decl.name.lexeme ⟨decl, env, decl.name.lexeme = "init"⟩) []

/-- Makes a class. The methods of a subclass stand inside a scope of their own, which has its
superclass as `super`. -/
def newClass (h : Heap) (env : Env) (name : String) (parent : Option Class)
    (methods : List FunctionDecl) : Class × Heap :=
  let (id, h) := h.freshId
  match parent with
  | none => (⟨⟨id, name, methodTable env methods⟩, []⟩, h)
  | some k =>
    let (inner, h) := h.nest env [("super", .class_ k)]
    (⟨⟨id, name, methodTable inner methods⟩, k.lineage⟩, h)

/-- Declares a class. Its name is there before the class is. -/
def declareClass (h : Heap) (env : Env) (name : String) (parent : Option Class)
    (methods : List FunctionDecl) : Heap :=
  let (k, h) := (h.define env name .nil).newClass env name parent methods
  match h.scopeOf? env name with
  | some scope => h.write scope name (.class_ k)
  | none => h

/-- Declares a function. -/
def declareFunction (h : Heap) (env : Env) (decl : FunctionDecl) : Heap :=
  let (f, h) := h.newFunction ⟨decl, env, false⟩
  h.define env decl.name.lexeme f

end Heap

/-- The environment at a distance outwards. -/
def Env.ancestor? (env : Env) (distance : Nat) : Option Env :=
  match env.drop distance with
  | [] => none
  | scope :: outer => some (scope :: outer)

end Lox
