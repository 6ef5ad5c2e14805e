import Lox.Machine.Step

/-!
# Lexical scoping

A second interpreter, which says what lexical scoping means. It has no distances and no chains of
scopes. Local variables live in cells of a store, and the names that are visible at a place are a
list of names with their cells (`Names`). Such a list never changes: a declaration gives a longer
one to the statements after it (`Lexical.declare`), and a function keeps the list of its
declaration. A name that is not in the list is global.

Everything else is as on the machine: values, operators, faults, and the order of evaluation. The
interpreter follows the syntax. It is bounded by a number of nested calls, and the answer is `none`
if the bound is too small.
-/

namespace Lox.Lexical

open Machine

/-- A cell of the store. -/
abbrev Location := Nat

/-- The local names that are visible at a place, latest first. -/
abbrev Names := List (String × Location)

/-- What a program can change. -/
structure Store where
  globals : Bindings (Value Names)
  cells : Array (Value Names)
  fields : Array (Bindings (Value Names))
  nextId : Nat
  sink : Sink
  clock : Clock

/-- The store before a program runs. -/
def Store.new (sink : Sink) (clock : Nat → Float) : Store :=
  ⟨[("clock", .builtin .clock)], #[], #[], 0, sink, ⟨clock, 0⟩⟩

/-- A run changes the store and gives a result or an error. -/
def Run (α : Type) := Store → Option (Except RuntimeError α × Store)

instance : Monad Run where
  pure a := fun s => some (.ok a, s)
  bind p f := fun s =>
    match p s with
    | some (.ok a, s) => f a s
    | some (.error e, s) => some (.error e, s)
    | none => none

theorem bind_ok {α β : Type} {p : Run α} {f : α → Run β} {s s' : Store} {a : α}
    (h : p s = some (.ok a, s')) : (p >>= f) s = f a s' := by
  simp only [bind, h]

/-- The bound is too small. -/
def exhausted {α : Type} : Run α := fun _ => none

/-- The program went wrong at a token. -/
def raise {α : Type} (site : Token) (fault : RuntimeFault) : Run α :=
  fun s => some (.error (.fault site fault), s)

/-- A result, or a fault at a token. -/
def orRaise {α : Type} (site : Token) : Except RuntimeFault α → Run α
  | .ok a => pure a
  | .error fault => raise site fault

/-- Changes the store. -/
def change (f : Store → Store) : Run Unit := fun s => some (.ok (), f s)

/-- A number for a new function or class. -/
def freshId : Run Nat := fun s => some (.ok s.nextId, { s with nextId := s.nextId + 1 })

/-! ## Names -/

/-- The value of a name. -/
def Store.get? (s : Store) (names : Names) (name : String) : Option (Value Names) :=
  match names.lookup name with
  | some l => s.cells[l]?
  | none => s.globals.get? name

/-- The value of a local name. -/
def Store.local? (s : Store) (names : Names) (name : String) : Option (Value Names) :=
  (names.lookup name).bind (s.cells[·]?)

/-- Gives a name a value. -/
def Store.put (s : Store) (names : Names) (name : String) (v : Value Names) : Store :=
  match names.lookup name with
  | some l => { s with cells := s.cells.setIfInBounds l v }
  | none => { s with globals := s.globals.insert name v }

/-- Reads a name. -/
def read (names : Names) (name : Token) : Run (Value Names) := fun s =>
  match s.get? names name.lexeme with
  | some v => some (.ok v, s)
  | none => raise name (.undefinedVariable name.lexeme) s

/-- Assigns to a name. -/
def assign (names : Names) (name : Token) (v : Value Names) : Run (Value Names) := fun s =>
  match s.get? names name.lexeme with
  | some _ => some (.ok v, s.put names name.lexeme v)
  | none => raise name (.undefinedVariable name.lexeme) s

/-- Where a statement stands: the names that are visible, and whether it declares local ones. -/
structure Place where
  names : Names
  isLocal : Bool

/-- Declares a name that has no value yet. A local name gets a new cell. -/
def reserve (place : Place) (name : String) : Run Names := fun s =>
  if place.isLocal then
    some (.ok ((name, s.cells.size) :: place.names), { s with cells := s.cells.push .nil })
  else some (.ok place.names, { s with globals := s.globals.insert name .nil })

/-- Declares a name with a value. The result is what is visible from here on. -/
def declare (place : Place) (name : String) (v : Value Names) : Run Names := do
  let names ← reserve place name
  change (·.put names name v)
  pure names

/-- Declares parameters with their arguments. -/
def declareAll (names : Names) : List Token → List (Value Names) → Run Names
  | p :: params, v :: arguments => do
    let names ← declare ⟨names, true⟩ p.lexeme v
    declareAll names params arguments
  | _, _ => pure names

/-! ## Functions, classes and objects -/

/-- A closure as a value of its own. -/
def newFunction (code : Closure Names) : Run (Value Names) := do
  let id ← freshId
  pure (.function id code)

/-- Declares a function, which sees its own name. -/
def declareFunction (place : Place) (decl : FunctionDecl) : Run Names := do
  let names ← reserve place decl.name.lexeme
  let f ← newFunction ⟨decl, names, false⟩
  change (·.put names decl.name.lexeme f)
  pure names

/-- Makes a class. The methods of a subclass see their superclass as `super`. -/
def newClass (names : Names) (name : String) (parent : Option (Class Names))
    (methods : List FunctionDecl) : Run (Class Names) := do
  let id ← freshId
  match parent with
  | none => pure ⟨⟨id, name, Heap.methodTable names methods⟩, []⟩
  | some k => do
    let inner ← declare ⟨names, true⟩ "super" (.class_ k)
    pure ⟨⟨id, name, Heap.methodTable inner methods⟩, k.lineage⟩

/-- Declares a class, whose methods see its name. -/
def declareClass (place : Place) (name : String) (parent : Option (Class Names))
    (methods : List FunctionDecl) : Run Names := do
  let names ← reserve place name
  let k ← newClass names name parent methods
  change (·.put names name (.class_ k))
  pure names

/-- Makes an object without fields. -/
def newObject (k : Class Names) : Run (Object Names) := fun s =>
  some (.ok ⟨s.fields.size, k⟩, { s with fields := s.fields.push [] })

/-- The fields of an object. -/
def Store.fieldsOf (s : Store) (o : Object Names) : Bindings (Value Names) :=
  (s.fields[o.id]?).getD []

/-- Gives a field a value, making it if needed. -/
def Store.setField (s : Store) (o : Object Names) (name : String) (v : Value Names) : Store :=
  { s with fields := s.fields.modify o.id (·.insert name v) }

/-- The method as it runs on an object, which it sees as `this`. -/
def bindMethod (method : Closure Names) (o : Object Names) : Run (Closure Names) := do
  let names ← declare ⟨method.env, true⟩ "this" (.object o)
  pure { method with env := names }

/-- A method bound to an object, as a value. -/
def boundMethod (method : Closure Names) (o : Object Names) : Run (Value Names) := do
  let code ← bindMethod method o
  newFunction code

/-- A field of an object, or else a method bound to it. -/
def property (name : Token) : Value Names → Run (Value Names)
  | .object o => fun s =>
    match (s.fieldsOf o).get? name.lexeme with
    | some v => some (.ok v, s)
    | none =>
      match o.class_.method? name.lexeme with
      | some found => boundMethod found o s
      | none => raise name (.undefinedProperty name.lexeme) s
  | _ => raise name .readOfNonObject

/-- A method of the superclass on the current object. -/
def superMethod (names : Names) (keyword method : Token) : Run (Value Names) := fun s =>
  match s.local? names "super" with
  | none => raise keyword .superUnresolved s
  | some (.class_ parent) =>
    match s.local? names "this" with
    | some (.object o) =>
      match parent.method? method.lexeme with
      | some found => boundMethod found o s
      | none => raise method (.undefinedProperty method.lexeme) s
    | _ => raise keyword .superOutsideMethod s
  | some _ => raise keyword .superNotClass s

/-! ## Calls -/

/-- How a statement ends: it is done, with the names that are visible from there on, or it
returns from its function. -/
inductive Completion where
  | done (names : Names)
  | returned (v : Value Names)

/-- Executes statements one after another. -/
def sequence (exec : Place → Stmt → Run Completion) (place : Place) : List Stmt → Run Completion
  | [] => pure (.done place.names)
  | s :: rest => do
    match ← exec place s with
    | .done names => sequence exec ⟨names, place.isLocal⟩ rest
    | .returned v => pure (.returned v)

/-- The value of a finished call: an initializer gives the object that it was bound to. -/
def finish (code : Closure Names) (v : Value Names) : Run (Value Names) := fun s =>
  if code.isInitializer then
    match s.local? code.env "this" with
    | some this => some (.ok this, s)
    | none => raise code.decl.name .initializerUnbound s
  else some (.ok v, s)

section

variable (body : Place → List Stmt → Run Completion)

/-- Executes the body of a function. -/
def enter (code : Closure Names) (arguments : List (Value Names)) : Run (Value Names) := do
  let names ← declareAll code.env code.decl.params arguments
  match ← body ⟨names, true⟩ code.decl.body with
  | .done _ => finish code .nil
  | .returned v => finish code v

/-- Makes an object and runs its initializer, if there is one. -/
def instantiate (k : Class Names) (arguments : List (Value Names)) : Run (Value Names) := do
  let o ← newObject k
  match k.method? "init" with
  | none => pure (.object o)
  | some init => do
    let code ← bindMethod init o
    let _ ← enter body code arguments
    pure (.object o)

/-- Reads the clock. -/
def readClock : Run (Value Names) := fun s =>
  some (.ok (.number (s.clock.reading s.clock.calls)),
    { s with clock := { s.clock with calls := s.clock.calls + 1 } })

/-- Calls a value. -/
def call (callee : Value Names) (paren : Token) (arguments : List (Value Names)) :
    Run (Value Names) :=
  match callee.arity? with
  | none => raise paren .notCallable
  | some arity =>
    if arguments.length = arity then
      match callee with
      | .builtin .clock => readClock
      | .function _ code => enter body code arguments
      | .class_ k => instantiate body k arguments
      | _ => raise paren .notCallable
    else raise paren (.wrongArity arity arguments.length)

end

/-! ## Expressions and statements -/

/-- Prints a value and a newline. -/
def print (v : Value Names) : Run Unit := fun s =>
  match s.sink.write (v.shown ++ "\n") with
  | (sink, none) => some (.ok (), { s with sink })
  | (sink, some fault) => some (.error (.sink fault), { s with sink })

/-- Executes a loop that goes round at most `n` times. -/
def repeatWhile (condition : Run (Value Names)) (body : Run Completion) (names : Names) :
    Nat → Run Completion
  | 0 => exhausted
  | n + 1 => do
    let v ← condition
    if v.truthy then
      match ← body with
      | .done _ => repeatWhile condition body names n
      | .returned v => pure (.returned v)
    else pure (.done names)

mutual

/-- Evaluates an expression. -/
def eval : Nat → Names → Expr → Run (Value Names)
  | 0, _, _ => exhausted
  | _ + 1, _, .constant value => pure (.ofConstant value)
  | n + 1, names, .grouping inner => eval n names inner
  | n + 1, names, .unary op right => do
    let v ← eval n names right
    orRaise op (applyUnary op.kind v)
  | n + 1, names, .binary left op right => do
    let a ← eval n names left
    let b ← eval n names right
    orRaise op (applyBinary op.kind a b)
  | n + 1, names, .logical left op right => do
    let a ← eval n names left
    if settles op.kind a then pure a else eval n names right
  | _ + 1, names, .var _ name => read names name
  | n + 1, names, .assign _ name value => do
    let v ← eval n names value
    assign names name v
  | n + 1, names, .call callee paren arguments => do
    let f ← eval n names callee
    let vs ← arguments.mapM (eval n names)
    call (sequence (exec n)) f paren vs
  | n + 1, names, .get object name => do
    let v ← eval n names object
    property name v
  | n + 1, names, .set object name value => do
    match ← eval n names object with
    | .object o => do
      let v ← eval n names value
      change (·.setField o name.lexeme v)
      pure v
    | _ => raise name .writeToNonObject
  | _ + 1, names, .this _ keyword => read names keyword
  | _ + 1, names, .super _ keyword method => superMethod names keyword method

/-- Executes a statement. -/
def exec : Nat → Place → Stmt → Run Completion
  | 0, _, _ => exhausted
  | n + 1, place, .expression expr => do
    let _ ← eval n place.names expr
    pure (.done place.names)
  | n + 1, place, .print expr => do
    let v ← eval n place.names expr
    print v
    pure (.done place.names)
  | _ + 1, place, .varDecl name none => .done <$> declare place name.lexeme .nil
  | n + 1, place, .varDecl name (some value) => do
    let v ← eval n place.names value
    .done <$> declare place name.lexeme v
  | n + 1, place, .block statements => do
    match ← sequence (exec n) ⟨place.names, true⟩ statements with
    | .done _ => pure (.done place.names)
    | .returned v => pure (.returned v)
  | n + 1, place, .branch condition thenBranch elseBranch => do
    let v ← eval n place.names condition
    if v.truthy then exec n place thenBranch
    else
      match elseBranch with
      | none => pure (.done place.names)
      | some s => exec n place s
  | n + 1, place, .loop condition body =>
    repeatWhile (eval n place.names condition) (exec n place body) place.names n
  | _ + 1, place, .funDecl function => .done <$> declareFunction place function
  | _ + 1, _, .ret _ none => pure (.returned .nil)
  | n + 1, place, .ret _ (some value) => do
    let v ← eval n place.names value
    pure (.returned v)
  | _ + 1, place, .classDecl name none methods =>
    .done <$> declareClass place name.lexeme none methods
  | n + 1, place, .classDecl name (some superclass) methods => do
    match ← eval n place.names superclass with
    | .class_ parent => .done <$> declareClass place name.lexeme (some parent) methods
    | _ => raise (Config.superclassSite name superclass) .superclassNotClass

end

/-! ## Programs -/

/-- Executes a program: its statements in order up to the first error, and then the output is
completed. -/
def program (n : Nat) : List Stmt → Run Unit
  | [] => fun s => some (s.sink.flush.elim (.ok ()) fun fault => .error (.sink fault), s)
  | s :: rest => do
    let _ ← exec n ⟨[], false⟩ s
    program n rest

/-- The error with which a program ends, if there is one, and its output. -/
def run (n : Nat) (sink : Sink) (clock : Nat → Float) (ss : List Stmt) :
    Option (Option RuntimeError × Sink) :=
  (program n ss (Store.new sink clock)).map fun
    | (.ok (), s) => (none, s.sink)
    | (.error e, s) => (some e, s.sink)

end Lox.Lexical
