import Lox.Machine.Fault
import Lox.Value

/-!
# Operators on values

Operators work on values that have been found already: whether an operator suits its operands is
decided when both are known.
-/

namespace Lox.Machine

variable {E : Type}

/-- An operator before its operand. -/
def applyUnary (op : Kind) (right : Value E) : Except RuntimeFault (Value E) :=
  match op with
  | .minus =>
    match right with
    | .number x => .ok (.number (-x))
    | _ => .error .operandNotNumber
  | .bang => .ok (.bool (!right.truthy))
  | _ => .error .noUnaryOperator

/-- Numbers are added and texts are joined. -/
def add : Value E → Value E → Except RuntimeFault (Value E)
  | .number a, .number b => .ok (.number (a + b))
  | .text a, .text b => .ok (.text (a ++ b))
  | _, _ => .error .operandsNotAddable

/-- The operators that work on numbers only. -/
def applyNumeric (op : Kind) (a b : Float) : Except RuntimeFault (Value E) :=
  match op with
  | .minus => .ok (.number (a - b))
  | .star => .ok (.number (a * b))
  | .slash => .ok (.number (a / b))
  | .greater => .ok (.bool (a > b))
  | .greaterEqual => .ok (.bool (a ≥ b))
  | .less => .ok (.bool (a < b))
  | .lessEqual => .ok (.bool (a ≤ b))
  | _ => .error .noBinaryOperator

/-- An operator between two operands. -/
def applyBinary (op : Kind) (left right : Value E) : Except RuntimeFault (Value E) :=
  match op with
  | .equalEqual => .ok (.bool (left.equals right))
  | .bangEqual => .ok (.bool (!left.equals right))
  | .plus => add left right
  | _ =>
    match left, right with
    | .number a, .number b => applyNumeric op a b
    | _, _ => .error .operandsNotNumbers

/-- An `or` is settled by a true left side, and an `and` by a false one. -/
def settles (op : Kind) (left : Value E) : Bool :=
  if op = .orWord then left.truthy else !left.truthy

end Lox.Machine
