import Lox.Console.Command
import Lox.Files
import Lox.Session
import Lox.Text.Utf8
import Lox.Token.Text
import Lox.Tree.Text

/-!
# The command line

Four commands: list the tokens of a file, show its trees, run it, or read lines and run each as
it comes. `respond` gives what a command writes and its exit status, from the texts of the files
and of the standard input alone.
-/

namespace Lox.Console

/-- What a command writes, and its exit status. -/
structure Response where
  stdout : String
  stderr : String
  exit : Nat
deriving DecidableEq, Repr

/-! ## Commands -/

/-- Each text on a line of its own. -/
def unlines (texts : List String) : String := String.join (texts.map (· ++ "\n"))

/-- The exit status for static errors. -/
def staticErrorExit : Nat := 65

/-- Lists the tokens of a source. -/
def tokenize (json : Bool) (source : String) : Response :=
  let items := scan source
  let errors := Lexer.errors items
  let line := if json then Token.jsonText else Token.text
  ⟨unlines ((Lexer.tokens items).map line), unlines (errors.map (·.report.text)),
    if errors.isEmpty then 0 else staticErrorExit⟩

/-- The line that shows a statement. -/
def treeLine (polish : Bool) : Stmt → String
  | .expression expr =>
    if polish then expr.reversePolish else (Stmt.expression expr).parenthesized
  | s => s.parenthesized

/-- Shows the trees of a source that has no errors. -/
def parseTrees (polish : Bool) (source : String) : Response :=
  let items := scan source
  let parsed := Lox.parse 0 (Lexer.tokens items)
  let reports := (Lexer.errors items).map LexicalError.report ++ parsed.reports
  if reports.isEmpty then ⟨unlines (parsed.statements.map (treeLine polish)), "", 0⟩
  else ⟨"", unlines (reports.map Report.text), staticErrorExit⟩

/-- Everything that a transcript reports. -/
def reportsOf (t : Transcript) : List Report :=
  t.errors.map StaticError.report ++ (t.runtimeError.map RuntimeError.report).toList

/-- Runs a source in a session and gives what it writes. -/
def answer (fuel : Nat) (s : Session) (source : String) : Option (Session × String × String) :=
  (s.run fuel source).map fun (next, transcript) =>
    let start := s.interpreter.world.sink.written.size
    (next, Text.ofCutBytes (next.interpreter.world.sink.since start),
      unlines ((reportsOf transcript).map Report.text))

/-- Runs a source in a session of its own. -/
def runSource (fuel : Nat) (clock : Nat → Float) (source : String) : Option Response :=
  (answer fuel (.new {} clock) source).map fun (s, out, err) => ⟨out, err, s.exitCode⟩

/-- The lines of a text, each with its newline; the last may lack one. -/
def splitLines : List Char → List (List Char)
  | [] => []
  | c :: cs =>
    if c = '\n' then ['\n'] :: splitLines cs
    else
      match splitLines cs with
      | [] => [[c]]
      | line :: rest => (c :: line) :: rest

/-- What the prompt shows before a line is read. -/
def promptSign : String := "> "

/-- Runs lines one after another in one session, forgetting static errors after each. -/
def runLines (fuel : Nat) (s : Session) : List String → Option Response
  | [] => some ⟨promptSign ++ "\n", "", 0⟩
  | line :: rest =>
    (answer fuel s line).bind fun (next, out, err) =>
      (runLines fuel next.reset rest).map fun r =>
        { r with stdout := promptSign ++ out ++ r.stdout, stderr := err ++ r.stderr }

/-- What a command writes, and its exit status; `none` if a run needs more steps than `fuel`. -/
def respond (fuel : Nat) (clock : Nat → Float) (files : String → Except FileFault ByteArray)
    (stdin : String) (command : Command) : Option Response :=
  let withSource (file : String) (go : String → Option Response) : Option Response :=
    match (files file).bind sourceOf with
    | .error fault => some ⟨"", fault.message file, 1⟩
    | .ok source => go source
  match command with
  | .prompt => runLines fuel (.new {} clock) ((splitLines stdin.toList).map String.ofList)
  | .run file => withSource file (runSource fuel clock)
  | .tokenize file json => withSource file fun source => some (tokenize json source)
  | .parse file polish => withSource file fun source => some (parseTrees polish source)

end Lox.Console
