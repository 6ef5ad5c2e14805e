import Lox.Token

/-!
# Diagnostics as they are shown

Each stage has its own errors, whose causes are data. Shown to a user, they all become reports:
a message with the place that the stage knows.
-/

namespace Lox

/-- A diagnostic, ready to be shown. -/
inductive Report where
  | lexical (line : Nat) (message : String)
  | grammar (line : Nat) (location message : String)
  | scoping (line : Nat) (location message : String)
  | runtime (line : Nat) (message : String)
  | output (message : String)
deriving DecidableEq, Repr

namespace Report

/-- A report about the place of a token, from the grammar. -/
def grammarAt (site : Token) (message : String) : Report :=
  .grammar site.line site.location message

/-- A report about the place of a token, from the check of scopes. -/
def scopingAt (site : Token) (message : String) : Report :=
  .scoping site.line site.location message

/-- A report about the place of a token, from a running program. -/
def runtimeAt (site : Token) (message : String) : Report := .runtime site.line message

/-- Static errors lead with their line, and runtime errors end with it. -/
def text : Report → String
  | lexical line message => s!"[line {line}] Error: {message}"
  | grammar line location message => s!"[line {line}] Error{location}: {message}"
  | scoping line location message => s!"[line {line}] Error{location}: {message}"
  | runtime line message => s!"{message}\n[line {line}]"
  | output message => message

end Report

end Lox
