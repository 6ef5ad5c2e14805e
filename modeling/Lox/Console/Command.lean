/-!
# Commands

What the arguments on the command line ask for. A flag starts with a dash and may be given once;
after `--` every argument is an operand, whatever it starts with.
-/

namespace Lox.Console

/-- What the command line asks for. -/
inductive Command where
  | prompt
  | run (file : String)
  | tokenize (file : String) (json : Bool)
  | parse (file : String) (polish : Bool)
deriving DecidableEq, Repr

/-- The file that a command reads. -/
def Command.file? : Command → Option String
  | prompt => none
  | run file | tokenize file _ | parse file _ => some file

/-- A flag is a dash with something after it. -/
def isFlag (arg : String) : Bool :=
  match arg.toList with
  | '-' :: _ :: _ => true
  | _ => false

/-- The flags and the operands among the arguments of a command that knows the given flags. -/
def sortArgs? (known : List String) : List String → Option (List String × List String)
  | [] => some ([], [])
  | arg :: rest =>
    if arg = "--" then some ([], rest)
    else if isFlag arg then
      if known.contains arg then
        (sortArgs? (known.erase arg) rest).map fun (flags, operands) => (arg :: flags, operands)
      else none
    else (sortArgs? known rest).map fun (flags, operands) => (flags, arg :: operands)

/-- The flag that asks for a log. -/
def logFlag : String := "--log"

/-- One file, and whether the given flag stands beside it. -/
def fileAndFlag? (flag : Option String) (args : List String) : Option (String × Bool) :=
  match sortArgs? (logFlag :: flag.toList) args with
  | some (flags, [file]) => if file.isEmpty then none else some (file, flag.any flags.contains)
  | _ => none

/-- The command that arguments ask for. The flag for a log may stand before the name of the
command or after it. -/
def Command.ofArgs? (args : List String) : Option Command :=
  match if args.head? = some logFlag then args.tail else args with
  | [] | ["--"] => some .prompt
  | "run" :: rest => (fileAndFlag? none rest).map fun (file, _) => .run file
  | "tokenize" :: rest =>
    (fileAndFlag? (some "--json") rest).map fun (file, json) => .tokenize file json
  | "parse" :: rest =>
    (fileAndFlag? (some "--rpn") rest).map fun (file, polish) => .parse file polish
  | _ => none

end Lox.Console
