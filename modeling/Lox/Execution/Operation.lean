import Lox.Diagnostic.Basic
import Lox.Tree.Basic

/-!
The meaning of operators on values, and what can go wrong in a run.
-/

namespace Lox

inductive RuntimeProblem
  | operandNotNumber
  | operandsNotNumbers
  | operandsNotNumbersOrStrings
  | undefinedVariable (name : String)
  deriving DecidableEq, Repr, Inhabited

/-- What stopped a run, and the line of the operator or name that it is due to. -/
structure RuntimeError where
  problem : RuntimeProblem
  line : Nat
  deriving DecidableEq, Repr, Inhabited

namespace RuntimeProblem

def code : RuntimeProblem → Code
  | operandNotNumber => .operandNotNumber
  | operandsNotNumbers | operandsNotNumbersOrStrings => .operandMismatch
  | undefinedVariable _ => .undefinedVariable

def message : RuntimeProblem → String
  | operandNotNumber => "Operand must be a number."
  | operandsNotNumbers => "Operands must be numbers."
  | operandsNotNumbersOrStrings => "Operands must be two numbers or two strings."
  | undefinedVariable name => "Undefined Variable '" ++ name ++ "'."

end RuntimeProblem

def RuntimeError.diagnostic (e : RuntimeError) : Diagnostic where
  code := e.problem.code
  line := e.line
  message := e.problem.message

/-- Minus needs a number; `not` takes any value. -/
def UnaryOp.apply (op : UnaryOp) (line : Nat) (v : Value) : Except RuntimeError Value :=
  match op, v with
  | negate, .number x => .ok (.number (-x))
  | negate, _ => .error ⟨.operandNotNumber, line⟩
  | not, v => .ok (.bool !v.truthy)

namespace BinaryOp

/-- An operator on two numbers. -/
def onNumbers (op : BinaryOp) (x y : Float) : Value :=
  match op with
  | add => .number (x + y)
  | subtract => .number (x - y)
  | multiply => .number (x * y)
  | divide => .number (x / y)
  | equal => .bool (x == y)
  | notEqual => .bool (x != y)
  | less => .bool (x < y)
  | lessEqual => .bool (x ≤ y)
  | greater => .bool (y < x)
  | greaterEqual => .bool (y ≤ x)

/-- Any two values can be compared for equality; `+` takes two numbers or two strings; the other
operators take two numbers. -/
def apply (op : BinaryOp) (line : Nat) (left right : Value) : Except RuntimeError Value :=
  match op, left, right with
  | equal, _, _ => .ok (.bool (left.equals right))
  | notEqual, _, _ => .ok (.bool !left.equals right)
  | _, .number x, .number y => .ok (op.onNumbers x y)
  | add, .string s, .string t => .ok (.string (s ++ t))
  | add, _, _ => .error ⟨.operandsNotNumbersOrStrings, line⟩
  | _, _, _ => .error ⟨.operandsNotNumbers, line⟩

end BinaryOp

/-- Whether the left operand decides the value of a logical operation. -/
def LogicalOp.decidedBy (op : LogicalOp) (left : Value) : Bool :=
  match op with
  | or => left.truthy
  | and => !left.truthy

end Lox
