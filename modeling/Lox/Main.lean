import Lox.Console
import Std.Time.DateTime.Timestamp

/-!
# The program

Reads the arguments, files and standard input, and writes what the command answers. All decisions
are those of `Lox.Console`.
-/

namespace Lox.Main

open Console

/-- More steps than any machine will make. -/
def fuel : Nat := 0x4000000000000000

/-- Seconds since the start of 1970, with their thousandths. -/
def now : IO Float := do
  let time ← Std.Time.Timestamp.now
  return Float.ofInt time.toMillisecondsSinceUnixEpoch.val / 1000

/-- Writes to the standard output at once. -/
def say (text : String) : IO Unit := do
  let out ← IO.getStdout
  out.putStr text
  out.flush

/-- The number and the wording in an error of the operating system. -/
def refusalOf : IO.Error → Refusal
  | .alreadyExists _ code details | .interrupted _ code details
  | .noFileOrDirectory _ code details | .invalidArgument _ code details
  | .permissionDenied _ code details | .resourceExhausted _ code details
  | .inappropriateType _ code details | .noSuchThing _ code details
  | .otherError code details | .resourceBusy code details | .resourceVanished code details
  | .unsupportedOperation code details | .hardwareFault code details
  | .unsatisfiedConstraints code details | .illegalOperation code details
  | .protocolError code details | .timeExpired code details => ⟨code.toNat, details⟩
  | .unexpectedEof => ⟨0, "unexpected end of file"⟩
  | .userError details => ⟨0, details⟩

/-- The content of a file, or why there is none. -/
def contentOf (file : String) : IO (Except FileFault ByteArray) := do
  match ← (IO.FS.Handle.mk file .read).toBaseIO with
  | .error e => return .error (.unopened (refusalOf e))
  | .ok handle =>
    match ← handle.readBinToEnd.toBaseIO with
    | .error e => return .error (.unread (refusalOf e))
    | .ok content => return .ok content

/-- Reads and runs lines until the input ends. -/
partial def promptLoop (s : Session) : IO UInt32 := do
  say promptSign
  let line ← (← IO.getStdin).getLine
  if line.isEmpty then
    say "\n"
    return 0
  match answer fuel s line with
  | none => return 1
  | some (next, out, err) =>
    say out
    IO.eprint err
    promptLoop next.reset

/-- Answers one command that reads a file. -/
def answerCommand (command : Command) (file : String) : IO UInt32 := do
  let content ← contentOf file
  let seconds ← now
  match respond fuel (fun _ => seconds) (fun _ => content) "" command with
  | none => return 1
  | some r =>
    say r.stdout
    IO.eprint r.stderr
    return r.exit.toUInt32

/-- Answers one command. -/
def perform (command : Command) : IO UInt32 := do
  match command.file? with
  | some file => answerCommand command file
  | none =>
    let seconds ← now
    promptLoop (.new {} fun _ => seconds)

end Lox.Main

def main (args : List String) : IO UInt32 := do
  match Lox.Console.Command.ofArgs? args with
  | none =>
    IO.eprintln "usage: lox [--log] [run FILE | tokenize FILE [--json] | parse FILE [--rpn]]"
    return 2
  | some command => Lox.Main.perform command
