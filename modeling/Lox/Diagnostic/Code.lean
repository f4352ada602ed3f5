/-!
The codes of diagnostics. Their first digit tells the phase: 0 for the text, 1 for the statements, 6
for a run.
-/

namespace Lox

inductive Code
  | unexpectedCharacter
  | unterminatedString
  | expectedExpression
  | expectedToken
  | expectedIdentifier
  | invalidTarget
  | operandNotNumber
  | operandMismatch
  | undefinedVariable
  deriving DecidableEq, Repr, Inhabited

namespace Code

inductive Phase
  | lexical
  | structural
  | running
  deriving DecidableEq, Repr

/-- Every code, in numeric order. -/
def all : List Code :=
  [unexpectedCharacter, unterminatedString,
    expectedExpression, expectedToken, expectedIdentifier, invalidTarget,
    operandNotNumber, operandMismatch, undefinedVariable]

theorem mem_all (c : Code) : c ∈ all := by
  cases c <;> decide

def text : Code → String
  | unexpectedCharacter => "E0001"
  | unterminatedString => "E0002"
  | expectedExpression => "E1001"
  | expectedToken => "E1002"
  | expectedIdentifier => "E1003"
  | invalidTarget => "E1004"
  | operandNotNumber => "E6001"
  | operandMismatch => "E6002"
  | undefinedVariable => "E6003"

/-- What the code stands for, in a few words. -/
def summary : Code → String
  | unexpectedCharacter => "unexpected character"
  | unterminatedString => "unterminated string"
  | expectedExpression => "expected expression"
  | expectedToken => "expected token"
  | expectedIdentifier => "expected identifier"
  | invalidTarget => "invalid assignment target"
  | operandNotNumber => "operand must be a number"
  | operandMismatch => "operand type mismatch"
  | undefinedVariable => "undefined variable"

def phase : Code → Phase
  | unexpectedCharacter | unterminatedString => .lexical
  | expectedExpression | expectedToken | expectedIdentifier | invalidTarget => .structural
  | operandNotNumber | operandMismatch | undefinedVariable => .running

/-- The code with a given text, in capitals or not. -/
def ofText? (text : String) : Option Code :=
  all.find? fun c => c.text == text.map Char.toUpper

end Code
end Lox
