import Lox.Execution.Operation
import Lox.Scope.Environment

/-!
Evaluation of expressions. Assignments change the environment, also those of an expression that
fails later on.
-/

namespace Lox

/-- The value of an expression, or what stopped it, and the environment afterwards. Operands are
evaluated from left to right, and both before the operator looks at them. -/
def Expr.eval : Expr → Environment → Except RuntimeError Value × Environment
  | literal value, e => (.ok value, e)
  | grouping inner, e => inner.eval e
  | unary op line operand, e =>
      match operand.eval e with
      | (.ok v, e) => (op.apply line v, e)
      | (.error problem, e) => (.error problem, e)
  | binary op line left right, e =>
      match left.eval e with
      | (.ok l, e) =>
          match right.eval e with
          | (.ok r, e) => (op.apply line l r, e)
          | (.error problem, e) => (.error problem, e)
      | (.error problem, e) => (.error problem, e)
  | logical op left right, e =>
      match left.eval e with
      | (.ok l, e) => if op.decidedBy l then (.ok l, e) else right.eval e
      | (.error problem, e) => (.error problem, e)
  | var name line, e =>
      match e.lookup name with
      | some v => (.ok v, e)
      | none => (.error ⟨.undefinedVariable name, line⟩, e)
  | assign name line value, e =>
      match value.eval e with
      | (.ok v, e) =>
          match e.assign? name v with
          | some e => (.ok v, e)
          | none => (.error ⟨.undefinedVariable name, line⟩, e)
      | (.error problem, e) => (.error problem, e)

end Lox
