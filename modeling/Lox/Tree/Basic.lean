import Lox.Tree.Operator
import Lox.Value

/-!
Expressions and statements.
-/

namespace Lox

/-- Expressions. The line of an operation is that of its operator, the line of a variable that of
its name. -/
inductive Expr
  | literal (value : Value)
  | grouping (inner : Expr)
  | unary (op : UnaryOp) (line : Nat) (operand : Expr)
  | binary (op : BinaryOp) (line : Nat) (left right : Expr)
  | logical (op : LogicalOp) (left right : Expr)
  | var (name : String) (line : Nat)
  | assign (name : String) (line : Nat) (value : Expr)
  deriving DecidableEq, Repr, Inhabited

/-- Statements. -/
inductive Stmt
  | expression (e : Expr)
  | print (e : Expr)
  | declare (name : String) (initializer : Option Expr) (line : Nat)
  | block (body : List Stmt)
  | ifThen (condition : Expr) (thenBranch : Stmt)
  | ifElse (condition : Expr) (thenBranch elseBranch : Stmt)
  | loop (condition : Expr) (body : Stmt)
  deriving Repr, Inhabited

/-- The expression that a connective on some line makes of two operands. -/
def Connective.join (c : Connective) (line : Nat) (left right : Expr) : Expr :=
  match c with
  | binary op => .binary op line left right
  | logical op => .logical op left right

end Lox
