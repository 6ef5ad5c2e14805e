import Lox.Grammar.Statement
import Lox.Interpreter
import Lox.Token.Scanner

/-!
# Sessions

A session runs one source after another in one interpreter. A source with a static error is not
run, and neither is any later one until the session is told to go on (`reset`). Node ids go on
from source to source, so no two nodes of a session share one.
-/

namespace Lox

open Scoping

/-- An error found before a source runs. -/
inductive StaticError where
  | lexical (error : LexicalError)
  | grammar (error : GrammarError)
  | scoping (error : ScopeError)

/-- The error as shown. -/
def StaticError.report : StaticError → Report
  | lexical error => error.report
  | grammar error => error.report
  | scoping error => error.report

/-- What a session has come to. -/
structure Session where
  interpreter : Interpreter
  hadError : Bool
  hadRuntimeError : Bool
  nextId : NodeId

/-- What one source brought to light. -/
structure Transcript where
  errors : List StaticError
  runtimeError : Option RuntimeError

namespace Session

/-- A new session. -/
def new (sink : Sink) (clock : Nat → Float) : Session := ⟨.new sink clock, false, false, 0⟩

/-- Runs one source. -/
def run (s : Session) (fuel : Nat) (source : String) : Option (Session × Transcript) :=
  let ⟨interpreter, hadError, hadRuntimeError, nextId⟩ := s
  let items := scan source
  let parsed := parse nextId (Lexer.tokens items)
  let errors := (Lexer.errors items).map .lexical ++ parsed.errors.map .grammar
  if hadError || !errors.isEmpty then
    some (⟨interpreter, true, hadRuntimeError, parsed.nextId⟩, ⟨errors, none⟩)
  else
    let findings := check parsed.statements
    let errors := (offences findings).map .scoping
    let interpreter := interpreter.learn findings
    if !errors.isEmpty then
      some (⟨interpreter, true, hadRuntimeError, parsed.nextId⟩, ⟨errors, none⟩)
    else
      (interpreter.interpret fuel parsed.statements).map fun (error, interpreter) =>
        (⟨interpreter, false, hadRuntimeError || error.isSome, parsed.nextId⟩, ⟨[], error⟩)

/-- Forgets that there were static errors. -/
def reset (s : Session) : Session := { s with hadError := false }

/-- The exit status for everything run so far. -/
def exitCode (s : Session) : Nat :=
  if s.hadError then 65 else if s.hadRuntimeError then 70 else 0

end Session

end Lox
