import Lox.Report
import Lox.Sink

/-!
# What can go wrong while a program runs

A run ends early with a fault of the program at one of its tokens, or because its output cannot
be taken. Some faults share a wording; they are kept apart here because they arise in different
places.
-/

namespace Lox

/-- What a program may do wrong. -/
inductive RuntimeFault where
  | undefinedVariable (name : String)
  | undefinedProperty (name : String)
  | operandNotNumber
  | operandsNotNumbers
  | operandsNotAddable
  | noUnaryOperator
  | noBinaryOperator
  | notCallable
  | wrongArity (expected given : Nat)
  | readOfNonObject
  | writeToNonObject
  | superclassNotClass
  | superUnresolved
  | superNotClass
  | superOutsideMethod
  | initializerUnbound
deriving DecidableEq, Repr

/-- The wording of a fault. -/
def RuntimeFault.message : RuntimeFault → String
  | undefinedVariable name => "Undefined variable '" ++ name ++ "'."
  | undefinedProperty name => "Undefined property '" ++ name ++ "'."
  | operandNotNumber => "Operand must be a number."
  | operandsNotNumbers => "Operands must be numbers."
  | operandsNotAddable => "Operands must be two numbers or two strings."
  | noUnaryOperator => "Invalid unary operator."
  | noBinaryOperator => "Invalid binary operator."
  | notCallable => "Can only call functions and classes."
  | wrongArity expected given => s!"Expected {expected} arguments but got {given}."
  | readOfNonObject => "Only instances have properties."
  | writeToNonObject => "Only instances have fields."
  | superclassNotClass => "Superclass must be a class."
  | superUnresolved => "Can't use 'super' outside of a class."
  | superNotClass => "Superclass must be a class."
  | superOutsideMethod => "Can't use 'super' outside of a method."
  | initializerUnbound => "Initializer called without an instance."

/-- What ends a run early. -/
inductive RuntimeError where
  | fault (site : Token) (cause : RuntimeFault)
  | sink (cause : SinkFault)
deriving DecidableEq

/-- The error as shown. -/
def RuntimeError.report : RuntimeError → Report
  | fault site cause => .runtimeAt site cause.message
  | sink cause => .output cause.message

end Lox
