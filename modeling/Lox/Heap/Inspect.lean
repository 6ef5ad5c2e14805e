import Lox.Heap
import Lox.Text.Quoted

/-!
# Values for inspection

Functions, classes and objects can be shown with their parts. Names are quoted, and lists of
names are sorted.
-/

namespace Lox

/-- Quoted texts in brackets. -/
def inspectNames (names : List String) : String :=
  "[" ++ ", ".intercalate ((names.mergeSort (fun a b => a ≤ b)).map Text.inspect) ++ "]"

/-- A name with its parts in braces. -/
def inspectParts (name : String) (parts : List (String × String)) : String :=
  name ++ " \x7b " ++ ", ".intercalate (parts.map fun p => p.1 ++ ": " ++ p.2) ++ " \x7d"

def Builtin.inspect : Builtin → String
  | .clock => "NativeFunction(clock/0)"

def Closure.inspect (f : Closure) : String :=
  inspectParts "LoxFunction"
    [("name", Text.inspect f.name), ("arity", toString f.arity),
      ("is_initializer", toString f.isInitializer)]

def Class.inspect (c : Class) : String :=
  inspectParts "LoxClass"
    [("name", Text.inspect c.name),
      ("superclass", match c.superclass? with
        | none => "None"
        | some parent => "Some(" ++ Text.inspect parent.name ++ ")"),
      ("methods", inspectNames c.own.methods.names)]

def Heap.inspectObject (h : Heap) (o : Object) : String :=
  inspectParts "LoxInstance"
    [("class", Text.inspect o.class_.name), ("fields", inspectNames (h.fieldsOf o).names)]

/-- The parts of a value that has any. -/
def Heap.inspect? (h : Heap) : Value → Option String
  | .builtin function => some function.inspect
  | .function _ code => some code.inspect
  | .class_ value => some value.inspect
  | .object value => some (h.inspectObject value)
  | .nil | .bool _ | .number _ | .text _ => none

end Lox
