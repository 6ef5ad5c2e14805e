import Lox.Machine.Step

/-!
# Interpreters

An interpreter is a machine at rest: the distances filed so far, the environment in which the
next statement runs, and the world. Its operations start the machine on a statement, on an
expression or on a call, and come back to rest when the run has ended.

The number of steps is bounded by `fuel`, and the answer is `none` if the bound is too small.
-/

namespace Lox

open Machine Scoping

/-- A machine at rest. -/
structure Interpreter where
  distances : Distances
  env : Env
  world : World

namespace Interpreter

/-- What every program can use. -/
def builtins : Bindings Value := [("clock", .builtin .clock)]

/-- A new interpreter: one scope, which holds the builtins. -/
def new (sink : Sink) (clock : Nat → Float) : Interpreter :=
  let (env, heap) := Heap.empty.nest [] builtins
  ⟨∅, env, ⟨heap, sink, ⟨clock, 0⟩⟩⟩

/-- Files the distances among findings. -/
def learn (i : Interpreter) (findings : List Finding) : Interpreter :=
  { i with distances := i.distances.file findings }

/-- The configuration that starts with the given work. -/
def start (i : Interpreter) (control : Control) : Config := ⟨control, i.env, [], i.world⟩

/-- Runs a configuration to its end and comes to rest there. -/
def complete (distances : Distances) (fuel : Nat) (c : Config) : Option (Signal × Interpreter) :=
  (run distances fuel c).map fun (s, c) => (s, ⟨distances, c.env, c.world⟩)

/-- Executes one statement. -/
def execute (i : Interpreter) (fuel : Nat) (s : Stmt) : Option (Signal × Interpreter) :=
  complete i.distances fuel (i.start (.exec s))

/-- Evaluates one expression. -/
def evaluate (i : Interpreter) (fuel : Nat) (e : Expr) : Option (Signal × Interpreter) :=
  complete i.distances fuel (i.start (.eval e))

/-- Calls a function without a look at the number of arguments. -/
def call (i : Interpreter) (fuel : Nat) (code : Closure) (arguments : List Value) :
    Option (Signal × Interpreter) :=
  complete i.distances fuel ((i.start (.signal .done)).enter code arguments)

/-- Executes a program: its statements in order up to the first error, and then the output is
completed. -/
def interpret (i : Interpreter) (fuel : Nat) :
    List Stmt → Option (Option RuntimeError × Interpreter)
  | [] => some (i.world.sink.flush.map .sink, i)
  | s :: rest =>
    match i.execute fuel s with
    | none => none
    | some (.raised error, i) => some (some error, i)
    | some (_, i) => i.interpret fuel rest

end Interpreter

end Lox
