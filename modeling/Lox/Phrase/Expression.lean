import Lox.Phrase.Reader
import Lox.Tree.Basic

/-!
Reading expressions. An expression is read by one reader for every rank of connectives, each built
from the reader of the next lower rank. The readers that call themselves count down from the number
of tokens: every turn takes a token, so that the count reaches zero only when no token is left.
-/

namespace Lox
namespace Reader

/-- A literal, a variable, or an expression in parentheses. -/
def primary (inner : Reader Expr) : Reader Expr := fun
  | [] => fail .noExpression []
  | t :: rest =>
      match t.kind with
      | .falseWord => .done (.literal (.bool false)) [] rest
      | .trueWord => .done (.literal (.bool true)) [] rest
      | .nullWord => .done (.literal .nil) [] rest
      | .number | .string => .done (.literal (t.literal.getD .nil)) [] rest
      | .identifier => .done (.var t.lexeme t.line) [] rest
      | .leftParen =>
          (do
            let e ← inner
            expect .parenAfterExpression
            return .grouping e : Reader Expr) rest
      | _ => fail .noExpression (t :: rest)

/-- Signs, at most `n` of them, in front of what has none. -/
def signed (unsigned : Reader Expr) : Nat → Reader Expr
  | 0 => unsigned
  | n + 1 => fun tokens =>
      match tokens with
      | [] => unsigned []
      | t :: rest =>
          match UnaryOp.ofKind? t.kind with
          | none => unsigned (t :: rest)
          | some op =>
              (do
                let operand ← signed unsigned n
                return .unary op t.line operand : Reader Expr) rest

/-- Connectives of one rank, at most `n` of them, each with an operand after it. They are joined
from the left. -/
def chain (operand : Reader Expr) (rank : Nat) : Nat → Expr → Reader Expr
  | 0, left => pure left
  | n + 1, left => fun tokens =>
      match tokens with
      | [] => pure left []
      | t :: rest =>
          match Connective.ofKindAt? rank t.kind with
          | none => pure left (t :: rest)
          | some c =>
              (do
                let right ← operand
                chain operand rank n (c.join t.line left right) : Reader Expr) rest

/-- Expressions whose connectives outside parentheses have at most a given rank. -/
def ranked (operand : Reader Expr) (n : Nat) : Nat → Reader Expr
  | 0 => operand
  | rank + 1 => do
      let left ← ranked operand n rank
      chain (ranked operand n rank) (rank + 1) n left

/-- What is left of an equals sign, and then perhaps an assignment to it. Only a variable can be
assigned to: any other left-hand side is the answer itself, and the fault is passed over once the
right-hand side is read. -/
def assignment (left value : Reader Expr) : Reader Expr := do
  let target ← left
  match ← take? .equal with
  | none => return target
  | some equals =>
      let v ← value
      match target with
      | .var name line => return .assign name line v
      | other =>
          pass ⟨.invalidTarget, some equals⟩
          return other

/-- An expression of at most `n` tokens. -/
def expressionWithin : Nat → Reader Expr
  | 0 => fail .noExpression
  | n + 1 =>
      let operand := signed (primary (expressionWithin n)) (n + 1)
      assignment (ranked operand (n + 1) Connective.loosest) (expressionWithin n)

/-- An expression. -/
def expression : Reader Expr := fun tokens => expressionWithin tokens.length tokens

end Reader
end Lox
