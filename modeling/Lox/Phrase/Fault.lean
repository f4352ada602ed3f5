import Lox.Diagnostic.Basic
import Lox.Token.Basic

/-!
What can be wrong with a sequence of tokens, and where.
-/

namespace Lox

/-- The pieces of punctuation that statements and expressions cannot do without. -/
inductive Piece
  | semicolonAfterDeclaration
  | semicolonAfterValue
  | semicolonAfterExpression
  | semicolonAfterLoopCondition
  | braceAfterBlock
  | parenAfterIf
  | parenAfterIfCondition
  | parenAfterWhile
  | parenAfterWhileCondition
  | parenAfterFor
  | parenAfterForClauses
  | parenAfterExpression
  deriving DecidableEq, Repr, Inhabited

namespace Piece

/-- The token that a piece consists of. -/
def kind : Piece → Kind
  | semicolonAfterDeclaration | semicolonAfterValue | semicolonAfterExpression
  | semicolonAfterLoopCondition => .semicolon
  | braceAfterBlock => .rightBrace
  | parenAfterIf | parenAfterWhile | parenAfterFor => .leftParen
  | parenAfterIfCondition | parenAfterWhileCondition | parenAfterForClauses
  | parenAfterExpression => .rightParen

def message : Piece → String
  | semicolonAfterDeclaration => "Expect ';' after variable declaration."
  | semicolonAfterValue => "Expect ';' after value."
  | semicolonAfterExpression => "Expect ';' after expression."
  | semicolonAfterLoopCondition => "Expect ';' after loop condition."
  | braceAfterBlock => "Expect '\x7d' after block."
  | parenAfterIf => "Expect '(' after 'if'."
  | parenAfterIfCondition => "Expect ')' after if condition."
  | parenAfterWhile => "Expect '(' after 'while'."
  | parenAfterWhileCondition => "Expect ')' after condition."
  | parenAfterFor => "Expect '(' after 'for'."
  | parenAfterForClauses => "Expect ')' after for clauses."
  | parenAfterExpression => "Expect ')' after expression."

end Piece

inductive Problem
  | noExpression
  | noVariableName
  | missing (piece : Piece)
  | invalidTarget
  deriving DecidableEq, Repr, Inhabited

namespace Problem

def code : Problem → Code
  | noExpression => .expectedExpression
  | noVariableName => .expectedIdentifier
  | missing _ => .expectedToken
  | invalidTarget => .invalidTarget

def message : Problem → String
  | noExpression => "Expect expression."
  | noVariableName => "Expect variable name."
  | missing piece => piece.message
  | invalidTarget => "Invalid assignment target."

end Problem

/-- A problem and the token at which it was found, none if that is the end of the tokens. -/
structure Fault where
  problem : Problem
  found : Option Token
  deriving DecidableEq, Repr, Inhabited

namespace Fault

/-- The report of a fault among tokens that end on a given line. -/
def diagnostic (endLine : Nat) (f : Fault) : Diagnostic where
  code := f.problem.code
  line := (f.found.map Token.line).getD endLine
  location :=
    match f.found with
    | some t => .lexeme t.lexeme
    | none => .atEnd
  message := f.problem.message

end Fault
end Lox
