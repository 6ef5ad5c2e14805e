import Lox.Text.Quoted

/-!
# Files by their paths

All files of a system stand in one tree. A path is a list of names with slashes between them. It
starts at the root of the tree if it starts with a slash, and in the working folder if not, and is
followed name by name: `.` and the empty name stay where they are, `..` goes up, where nothing is
above the root, and any other name has to stand in the folder reached so far. What is found at the
end is a file, a folder or something that cannot be opened; only a file can be read.
-/

namespace Lox

/-! ## Faults -/

/-- A refusal of the operating system: its number and its wording. -/
structure Refusal where
  number : Nat
  wording : String
deriving DecidableEq, Repr

namespace Refusal

def missing : Refusal := ⟨2, "No such file or directory"⟩

def noDevice : Refusal := ⟨6, "No such device or address"⟩

def notFolder : Refusal := ⟨20, "Not a directory"⟩

def isFolder : Refusal := ⟨21, "Is a directory"⟩

def nameTooLong : Refusal := ⟨36, "File name too long"⟩

/-- A refusal as it is shown. -/
def text (r : Refusal) : String := r.wording ++ " (os error " ++ toString r.number ++ ")"

end Refusal

/-- Why a file gives no source. -/
inductive FileFault where
  | unopened (refusal : Refusal)
  | unread (refusal : Refusal)
  | notText
deriving DecidableEq, Repr

/-- What could not be done with the file. -/
def FileFault.act : FileFault → String
  | unopened _ => "open"
  | unread _ | notText => "read"

/-- Why it could not be done. -/
def FileFault.cause : FileFault → String
  | unopened refusal | unread refusal => refusal.text
  | notText => "stream did not contain valid UTF-8"

/-- The wording of a fault of a file. -/
def FileFault.message (file : String) (fault : FileFault) : String :=
  "Error: Failed to " ++ fault.act ++ " file " ++ Text.inspect file
    ++ "\n\nCaused by:\n    " ++ fault.cause ++ "\n"

/-! ## Trees of files -/

/-- What stands under a name. -/
inductive Entry where
  | file (content : ByteArray)
  | folder
  | closed (refusal : Refusal)

/-- What a system holds, by the names that lead to it from the root. -/
structure FileTree where
  entries : List (List String × Entry)

/-- What stands at the end of the given names. Each name on the way to an entry is a folder, and so
is the root. -/
def FileTree.entry (t : FileTree) (names : List String) : Except Refusal Entry :=
  match t.entries.lookup names with
  | some entry => .ok entry
  | none =>
    if names.isEmpty || t.entries.any (fun (place, _) => names.isPrefixOf place) then .ok .folder
    else .error .missing

/-! ## Paths -/

/-- The names in a path, which are those between its slashes. -/
def pathNames : List Char → List (List Char)
  | [] => [[]]
  | c :: cs =>
    if c = '/' then [] :: pathNames cs
    else
      match pathNames cs with
      | [] => [[c]]
      | name :: names => (c :: name) :: names

/-- The names in the text of a path. -/
def namesOf (path : String) : List String := (pathNames path.toList).map String.ofList

/-- The most bytes in a name. -/
def nameLimit : Nat := 255

/-- The most bytes in a path. -/
def pathLimit : Nat := 4095

/-- Where a name leads from a place, which is given by the names from the root. -/
def nextPlace (place : List String) (name : String) : List String :=
  if name = "" ∨ name = "." then place
  else if name = ".." then place.dropLast
  else place ++ [name]

/-- Follows names from a place, which has to be a folder while there are names left. -/
def FileTree.follow (t : FileTree) (place : List String) : List String → Except Refusal Entry
  | [] => t.entry place
  | name :: rest =>
    match t.entry place with
    | .error refusal => .error refusal
    | .ok .folder =>
      if nameLimit < name.utf8ByteSize then .error .nameTooLong
      else t.follow (nextPlace place name) rest
    | .ok _ => .error .notFolder

/-- Where the working folder stands. No path can spell its own name, so it is entered only by
starting in it. -/
def workingPlace : List String := ["tmp", ""]

/-- What stands at a path. -/
def FileTree.find (t : FileTree) (path : String) : Except Refusal Entry :=
  if path.isEmpty then .error .missing
  else if pathLimit < path.utf8ByteSize then .error .nameTooLong
  else
    match namesOf path with
    | "" :: names => t.follow [] names
    | names => t.follow workingPlace names

/-- The content of the file at a path. A folder can be opened, but not read. -/
def FileTree.read (t : FileTree) (path : String) : Except FileFault ByteArray :=
  match t.find path with
  | .error refusal | .ok (.closed refusal) => .error (.unopened refusal)
  | .ok .folder => .error (.unread .isFolder)
  | .ok (.file content) => .ok content

/-! ## The system -/

/-- The folders that every system has. -/
def systemFolders : List String :=
  ["/bin", "/boot", "/dev", "/etc", "/home", "/lib", "/media", "/mnt", "/opt", "/proc", "/root",
   "/run", "/sbin", "/srv", "/sys", "/tmp", "/usr/bin", "/usr/lib", "/usr/local", "/usr/sbin",
   "/usr/share", "/var/cache", "/var/lib", "/var/log", "/var/spool", "/var/tmp"]

/-- The devices that every system has: one that is always empty, the standard input under each of
its names, and the terminal, of which a command that reads from a pipe has none. -/
def systemDevices (stdin : ByteArray) : List (String × Entry) :=
  [("/dev/null", .file .empty), ("/dev/stdin", .file stdin), ("/dev/fd/0", .file stdin),
   ("/proc/self/fd/0", .file stdin), ("/dev/tty", .closed .noDevice)]

/-- The names from the root to the end of a path that starts with a slash. -/
def namesFromRoot (path : String) : List String := (namesOf path).drop 1

/-- A system with the given standard input whose working folder holds the given files. -/
def FileTree.ofFiles (stdin : ByteArray) (files : List (String × ByteArray)) : FileTree :=
  let own := files.map fun (path, content) => (workingPlace ++ namesOf path, Entry.file content)
  let folders := systemFolders.map fun path => (namesFromRoot path, Entry.folder)
  let devices := (systemDevices stdin).map fun (path, entry) => (namesFromRoot path, entry)
  ⟨own ++ (workingPlace, .folder) :: folders ++ devices⟩

/-! ## Sources -/

/-- The source that the bytes of a file stand for. -/
def sourceOf (content : ByteArray) : Except FileFault String :=
  match String.fromUTF8? content with
  | none => .error .notText
  | some source => .ok source

end Lox
