import Lox.Heap
import Lox.Machine.Fault

/-!
# Configurations of the machine

Programs run on a machine. A configuration says what the machine is about to do, in which
environment, what remains to be done after it, and the state of the world. What remains is a
stack of frames, each waiting for the outcome of the work above it.

Work ends with a signal: an expression ends with a value, a statement is done or returns from
its function, and both may raise an error. Frames that entered an environment remember the one
before it and restore it on every signal.
-/

namespace Lox.Machine

/-- The readings of the clock, one for each call, and the number of calls so far. -/
structure Clock where
  reading : Nat → Float
  calls : Nat

/-- What a program can change. -/
structure World where
  heap : Heap
  sink : Sink
  clock : Clock

/-- How a piece of work ended. -/
inductive Signal where
  | value (v : Value)
  | done
  | returned (v : Value)
  | raised (error : RuntimeError)

/-- What the machine is about to do. -/
inductive Control where
  | eval (e : Expr)
  | exec (s : Stmt)
  | signal (s : Signal)

/-- Work that waits for a signal. -/
inductive Frame where
  | unary (op : Token)
  | binaryLeft (op : Token) (right : Expr)
  | binaryRight (left : Value) (op : Token)
  | logical (op : Token) (right : Expr)
  | assign (id : NodeId) (name : Token)
  | callee (paren : Token) (arguments : List Expr)
  | argument (callee : Value) (paren : Token) (before : List Value) (after : List Expr)
  | get (name : Token)
  | setObject (name : Token) (value : Expr)
  | setValue (object : Object) (name : Token)
  | discard
  | print
  | define (name : Token)
  | branch (thenBranch : Stmt) (elseBranch : Option Stmt)
  | loopTest (condition : Expr) (body : Stmt)
  | loopBody (condition : Expr) (body : Stmt)
  | sequence (statements : List Stmt)
  | ret
  | superclass (name : Token) (site : Token) (methods : List FunctionDecl)
  /-- Leaves a scope for the environment around it. -/
  | scope (saved : Env)
  /-- Leaves the body of a function for the environment of the call. -/
  | call (code : Closure) (saved : Env)
  /-- Waits for the initializer of a new object. -/
  | construct (object : Object)

/-- A moment of a run. -/
structure Config where
  control : Control
  env : Env
  stack : List Frame
  world : World

namespace Config

/-- Work has ended with a signal. -/
def signal (c : Config) (s : Signal) : Config := { c with control := .signal s }

/-- An expression has a value. -/
def give (c : Config) (v : Value) : Config := c.signal (.value v)

/-- A statement is done. -/
def done (c : Config) : Config := c.signal .done

/-- The program went wrong at a token. -/
def raise (c : Config) (site : Token) (fault : RuntimeFault) : Config :=
  c.signal (.raised (.fault site fault))

/-- A value, or a fault at a token. -/
def giveOr (c : Config) (site : Token) : Except RuntimeFault Value → Config
  | .ok v => c.give v
  | .error fault => c.raise site fault

/-- Evaluates an expression, and then the frame goes on. -/
def evalThen (c : Config) (e : Expr) (frame : Frame) : Config :=
  { c with control := .eval e, stack := frame :: c.stack }

/-- Executes a statement, and then the frame goes on. -/
def execThen (c : Config) (s : Stmt) (frame : Frame) : Config :=
  { c with control := .exec s, stack := frame :: c.stack }

/-- The heap of a configuration. -/
def heap (c : Config) : Heap := c.world.heap

/-- An operation on the heap that has a result. -/
def onHeap {α : Type} (c : Config) (f : Heap → α × Heap) : α × Config :=
  let ⟨control, env, stack, ⟨heap, sink, clock⟩⟩ := c
  let (a, heap) := f heap
  (a, ⟨control, env, stack, ⟨heap, sink, clock⟩⟩)

/-- An operation on the heap. -/
def mapHeap (c : Config) (f : Env → Heap → Heap) : Config :=
  let ⟨control, env, stack, ⟨heap, sink, clock⟩⟩ := c
  ⟨control, env, stack, ⟨f env heap, sink, clock⟩⟩

/-- Writes a text to the sink. -/
def write (c : Config) (text : String) : Option SinkFault × Config :=
  let ⟨control, env, stack, ⟨heap, sink, clock⟩⟩ := c
  let (sink, fault) := sink.write text
  (fault, ⟨control, env, stack, ⟨heap, sink, clock⟩⟩)

/-- On a value the work goes on; any other signal passes. -/
def onValue (c : Config) (s : Signal) (go : Config → Value → Config) : Config :=
  match s with
  | .value v => go c v
  | .done | .returned _ | .raised _ => c.signal s

/-- On a finished statement the work goes on; any other signal passes. -/
def onDone (c : Config) (s : Signal) (go : Config → Config) : Config :=
  match s with
  | .done => go c
  | .value _ | .returned _ | .raised _ => c.signal s

/-- The signal with which a run has ended. -/
def result? (c : Config) : Option Signal :=
  match c.control, c.stack with
  | .signal s, [] => some s
  | _, _ => none

end Config

end Lox.Machine
