import Lox.Machine.Config
import Lox.Machine.Operator
import Lox.Scoping.Check

/-!
# Steps of the machine

One step starts an expression or a statement, or hands a signal to the frame on top. A run makes
steps until the stack is empty and a signal is left over.

Names are looked up by distance where the check of scopes filed one, and otherwise among the
globals. Operands are evaluated from left to right, and all of them before the operator or the
call looks at any.
-/

namespace Lox

/-- The scope of global names. -/
def globalScope : ScopeId := 0

/-- The environment at the outermost level. -/
def globalEnv : Env := [globalScope]

namespace Machine

open Scoping

variable (distances : Distances)

/-! ## Names -/

/-- The value that a node finds under its name. -/
def lookUp (h : Heap) (env : Env) (id : NodeId) (name : String) : Option Value :=
  match distances[id]? with
  | some hops => h.getAt? env hops name
  | none => h.get? globalEnv name

/-- The scope in which a node changes its name. -/
def targetOf (h : Heap) (env : Env) (id : NodeId) (name : String) : Option ScopeId :=
  match distances[id]? with
  | some hops => h.scopeAt? env hops name
  | none => h.scopeOf? globalEnv name

namespace Config

variable (c : Config)

/-- Reads a name. -/
def read (id : NodeId) (name : Token) : Config :=
  match lookUp distances c.heap c.env id name.lexeme with
  | some v => c.give v
  | none => c.raise name (.undefinedVariable name.lexeme)

/-- Assigns to a name. -/
def assign (id : NodeId) (name : Token) (v : Value) : Config :=
  match targetOf distances c.heap c.env id name.lexeme with
  | some scope => (c.mapHeap fun _ h => h.write scope name.lexeme v).give v
  | none => c.raise name (.undefinedVariable name.lexeme)

/-- Gives a method bound to an object. -/
def giveMethod (method : Closure) (o : Object) : Config :=
  let (v, c) := c.onHeap (·.boundMethod method o)
  c.give v

/-- A method of the superclass on the current object. The scope of `this` lies just inside that
of `super`. -/
def superMethod (id : NodeId) (keyword method : Token) : Config :=
  match distances[id]? with
  | none => c.raise keyword .superUnresolved
  | some hops =>
    match c.heap.getAt? c.env hops "super" with
    | some (.class_ parent) =>
      match (if hops = 0 then none else c.heap.getAt? c.env (hops - 1) "this") with
      | some (.object o) =>
        match parent.method? method.lexeme with
        | some found => c.giveMethod found o
        | none => c.raise method (.undefinedProperty method.lexeme)
      | _ => c.raise keyword .superOutsideMethod
    | _ => c.raise keyword .superNotClass

/-! ## Properties -/

/-- A field of an object, or else a method bound to it. -/
def property (name : Token) : Value → Config
  | .object o =>
    match (c.heap.fieldsOf o).get? name.lexeme with
    | some v => c.give v
    | none =>
      match o.class_.method? name.lexeme with
      | some found => c.giveMethod found o
      | none => c.raise name (.undefinedProperty name.lexeme)
  | _ => c.raise name .readOfNonObject

/-! ## Calls -/

/-- The bindings of parameters to arguments. Superfluous arguments are dropped, and parameters
without an argument stay unbound. -/
def bindParams (params : List Token) (arguments : List Value) : Bindings Value :=
  (params.zip arguments).foldl (fun b p => b.insert p.1.lexeme p.2) []

/-- Enters a scope with the given bindings inside `outer` and executes statements there; the
frame leaves the scope again. -/
def within (outer : Env) (bindings : Bindings Value) (statements : List Stmt) (leave : Frame) :
    Config :=
  let (env, c) := c.onHeap (·.nest outer bindings)
  { c with
    control := .signal .done
    env
    stack := .sequence statements :: leave :: c.stack }

/-- Enters the body of a function. -/
def enter (code : Closure) (arguments : List Value) : Config :=
  c.within code.env (bindParams code.decl.params arguments) code.decl.body (.call code c.env)

/-- The value of a finished call: an initializer gives the object that it was bound to, whatever
its body returned. -/
def finish (code : Closure) (v : Value) : Config :=
  if code.isInitializer then
    match c.heap.getAt? code.env 0 "this" with
    | some this => c.give this
    | none => c.raise code.decl.name .initializerUnbound
  else c.give v

/-- Makes an object and starts its initializer, if there is one. -/
def instantiate (k : Class) (arguments : List Value) : Config :=
  let (o, c) := c.onHeap (·.newObject k)
  match k.method? "init" with
  | none => c.give (.object o)
  | some init =>
    let (code, c) := c.onHeap (·.bind init o)
    { c with stack := .construct o :: c.stack }.enter code arguments

/-- Reads the clock. -/
def readClock : Config :=
  let clock := c.world.clock
  { c with world := { c.world with clock := { clock with calls := clock.calls + 1 } } }.give
    (.number (clock.reading clock.calls))

/-- Calls a value with the right number of arguments. -/
def invoke (paren : Token) (arguments : List Value) : Value → Config
  | .builtin .clock => c.readClock
  | .function _ code => c.enter code arguments
  | .class_ k => c.instantiate k arguments
  | _ => c.raise paren .notCallable

/-- Calls a value. -/
def call (callee : Value) (paren : Token) (arguments : List Value) : Config :=
  match callee.arity? with
  | none => c.raise paren .notCallable
  | some arity =>
    if arguments.length = arity then c.invoke paren arguments callee
    else c.raise paren (.wrongArity arity arguments.length)

/-- Evaluates the arguments that are left, and then calls. -/
def callWith (callee : Value) (paren : Token) (before : List Value) : List Expr → Config
  | [] => c.call callee paren before
  | e :: after => c.evalThen e (.argument callee paren before after)

/-! ## Declarations -/

/-- Declares a class. -/
def declareClass (name : Token) (parent : Option Class) (methods : List FunctionDecl) : Config :=
  (c.mapHeap fun env h => h.declareClass env name.lexeme parent methods).done

/-- Declares a function. -/
def declareFunction (decl : FunctionDecl) : Config :=
  (c.mapHeap fun env h => h.declareFunction env decl).done

/-- Declares a variable. -/
def declareVar (name : Token) (v : Value) : Config :=
  (c.mapHeap fun env h => h.define env name.lexeme v).done

/-! ## Statements -/

/-- Prints a value and a newline. -/
def print (v : Value) : Config :=
  match c.write (v.shown ++ "\n") with
  | (none, c) => c.done
  | (some fault, c) => c.signal (.raised (.sink fault))

/-- Executes statements one after another. -/
def runAll : List Stmt → Config
  | [] => c.done
  | s :: rest => c.execThen s (.sequence rest)

/-- Executes statements in a scope of their own. -/
def runBlock (statements : List Stmt) : Config := c.within c.env [] statements (.scope c.env)

/-- Executes a statement that may be absent. -/
def exec? : Option Stmt → Config
  | none => c.done
  | some s => { c with control := .exec s }

/-! ## Starting work -/

/-- Starts an expression. -/
def startExpr : Expr → Config
  | .constant value => c.give (.ofConstant value)
  | .grouping inner => { c with control := .eval inner }
  | .unary op right => c.evalThen right (.unary op)
  | .binary left op right => c.evalThen left (.binaryLeft op right)
  | .logical left op right => c.evalThen left (.logical op right)
  | .var id name => c.read distances id name
  | .assign id name value => c.evalThen value (.assign id name)
  | .call callee paren arguments => c.evalThen callee (.callee paren arguments)
  | .get object name => c.evalThen object (.get name)
  | .set object name value => c.evalThen object (.setObject name value)
  | .this id keyword => c.read distances id keyword
  | .super id keyword method => c.superMethod distances id keyword method

/-- The token to blame when a superclass is no class: its name, if it is just a name. -/
def superclassSite (name : Token) : Expr → Token
  | .var _ superclass => superclass
  | _ => name

/-- Starts a statement. -/
def startStmt : Stmt → Config
  | .expression expr => c.evalThen expr .discard
  | .print expr => c.evalThen expr .print
  | .varDecl name none => c.declareVar name .nil
  | .varDecl name (some value) => c.evalThen value (.define name)
  | .block statements => c.runBlock statements
  | .branch condition thenBranch elseBranch =>
    c.evalThen condition (.branch thenBranch elseBranch)
  | .loop condition body => c.evalThen condition (.loopTest condition body)
  | .funDecl function => c.declareFunction function
  | .ret _ none => c.signal (.returned .nil)
  | .ret _ (some value) => c.evalThen value .ret
  | .classDecl name none methods => c.declareClass name none methods
  | .classDecl name (some superclass) methods =>
    c.evalThen superclass (.superclass name (superclassSite name superclass) methods)

/-! ## Going on after a signal -/

/-- Hands a signal to a frame that has been taken off the stack. -/
def resume (s : Signal) : Frame → Config
  | .unary op => c.onValue s fun c v => c.giveOr op (applyUnary op.kind v)
  | .binaryLeft op right => c.onValue s fun c v => c.evalThen right (.binaryRight v op)
  | .binaryRight left op => c.onValue s fun c v => c.giveOr op (applyBinary op.kind left v)
  | .logical op right => c.onValue s fun c v =>
    if settles op.kind v then c.give v else { c with control := .eval right }
  | .assign id name => c.onValue s fun c v => c.assign distances id name v
  | .callee paren arguments => c.onValue s fun c v => c.callWith v paren [] arguments
  | .argument callee paren before after => c.onValue s fun c v =>
    c.callWith callee paren (before ++ [v]) after
  | .get name => c.onValue s fun c v => c.property name v
  | .setObject name value => c.onValue s fun c v =>
    match v with
    | .object o => c.evalThen value (.setValue o name)
    | _ => c.raise name .writeToNonObject
  | .setValue o name => c.onValue s fun c v =>
    (c.mapHeap fun _ h => h.setField o name.lexeme v).give v
  | .discard => c.onValue s fun c _ => c.done
  | .print => c.onValue s fun c v => c.print v
  | .define name => c.onValue s fun c v => c.declareVar name v
  | .branch thenBranch elseBranch => c.onValue s fun c v =>
    if v.truthy then { c with control := .exec thenBranch } else c.exec? elseBranch
  | .loopTest condition body => c.onValue s fun c v =>
    if v.truthy then c.execThen body (.loopBody condition body) else c.done
  | .loopBody condition body => c.onDone s fun c =>
    c.evalThen condition (.loopTest condition body)
  | .sequence statements => c.onDone s fun c => c.runAll statements
  | .ret => c.onValue s fun c v => c.signal (.returned v)
  | .superclass name site methods => c.onValue s fun c v =>
    match v with
    | .class_ parent => c.declareClass name (some parent) methods
    | _ => c.raise site .superclassNotClass
  | .scope saved => { c with env := saved }.signal s
  | .call code saved =>
    match s with
    | .done => { c with env := saved }.finish code .nil
    | .returned v => { c with env := saved }.finish code v
    | .value _ | .raised _ => { c with env := saved }.signal s
  | .construct o => c.onValue s fun c _ => c.give (.object o)

end Config

/-- One step. A run that has ended stays as it is. -/
def step (c : Config) : Config :=
  match c.control with
  | .eval e => c.startExpr distances e
  | .exec s => c.startStmt s
  | .signal s =>
    match c.stack with
    | [] => c
    | frame :: stack => { c with stack }.resume distances s frame

/-- Makes steps until the run has ended, but no more than `fuel`; `none` if they do not suffice. -/
def run (fuel : Nat) (c : Config) : Option (Signal × Config) :=
  match c.result? with
  | some s => some (s, c)
  | none =>
    match fuel with
    | 0 => none
    | fuel + 1 => run fuel (step distances c)

end Machine

end Lox
