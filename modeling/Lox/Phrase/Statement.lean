import Lox.Phrase.Expression

/-!
Reading statements. A declaration that cannot be read is passed over, up to where the next statement
seems to begin, so that all the faults of a program are found in one reading.
-/

namespace Lox

/-- What a `for` loop means. A loop scope is there only for an initializer, and an increment follows
the body in a block of their own. -/
def Stmt.forLoop (initializer : Option Stmt) (condition increment : Option Expr) (body : Stmt) :
    Stmt :=
  let body :=
    match increment with
    | some e => .block [body, .expression e]
    | none => body
  let loop := Stmt.loop (condition.getD (.literal (.bool true))) body
  match initializer with
  | some s => .block [s, loop]
  | none => loop

namespace Reader

/-- The words with which a statement or a declaration begins. -/
def boundary : KindSet :=
  .ofList [.classWord, .funWord, .varWord, .forWord, .ifWord, .whileWord, .printWord, .returnWord]

/-- The tokens with which reading goes on after a fault: at least one token is given up, then all
tokens up to the first semicolon, or up to a word with which a statement begins. -/
def resume : List Token → List Token
  | [] => []
  | t :: rest =>
      if t.kind = .semicolon then rest
      else
        match rest with
        | [] => []
        | u :: more => if boundary.contains u.kind then u :: more else resume (u :: more)

/-- An equals sign and the expression after it; nothing if there is no equals sign. -/
def initialValue : Reader (Option Expr) := do
  match ← take? .equal with
  | some _ => some <$> expression
  | none => return none

/-- The rest of a declaration, after `var`. -/
def declaredVariable : Reader Stmt := do
  let name ← take .identifier .noVariableName
  let value ← initialValue
  expect .semicolonAfterDeclaration
  return .declare name.lexeme value name.line

def printed : Reader Stmt := do
  let e ← expression
  expect .semicolonAfterValue
  return .print e

def expressionStatement : Reader Stmt := do
  let e ← expression
  expect .semicolonAfterExpression
  return .expression e

/-- A declaration, or a statement. -/
def declaration (statement : Reader Stmt) : Reader Stmt := do
  match ← take? .varWord with
  | some _ => declaredVariable
  | none => statement

/-- Declarations in a row, the faults that were passed over among them, and the tokens left. -/
structure Declarations where
  statements : List Stmt
  passed : List Fault
  rest : List Token

/-- Declarations up to a token of a kind, which is left, or to the end: at most `n` of them, after
those already read and the faults already passed over, latest first. -/
def declarationsWithin (one : Reader Stmt) (close : Kind) :
    Nat → List Stmt → List Fault → List Token → Declarations
  | 0, found, passed, tokens => ⟨found.reverse, passed.reverse, tokens⟩
  | _ + 1, found, passed, [] => ⟨found.reverse, passed.reverse, []⟩
  | n + 1, found, passed, t :: rest =>
      if t.kind = close then ⟨found.reverse, passed.reverse, t :: rest⟩
      else
        match one (t :: rest) with
        | .done s more rest =>
            declarationsWithin one close n (s :: found) (more.reverse ++ passed) rest
        | .failed fault more rest =>
            declarationsWithin one close n found (fault :: more.reverse ++ passed) (resume rest)

/-- Declarations up to a token of a kind, or to the end. -/
def declarations (one : Reader Stmt) (close : Kind) (tokens : List Token) : Declarations :=
  declarationsWithin one close tokens.length [] [] tokens

/-- The declarations of a block, after its opening brace. -/
def blockBody (one : Reader Stmt) : Reader (List Stmt) := fun tokens =>
  let body := declarations one .rightBrace tokens
  .done body.statements body.passed body.rest

/-- The rest of a block, after its opening brace. -/
def block (one : Reader Stmt) : Reader Stmt := do
  let body ← blockBody one
  expect .braceAfterBlock
  return .block body

/-- The rest of a conditional. An `else` belongs to the nearest `if`. -/
def conditional (statement : Reader Stmt) : Reader Stmt := do
  expect .parenAfterIf
  let condition ← expression
  expect .parenAfterIfCondition
  let thenBranch ← statement
  match ← take? .elseWord with
  | some _ => return .ifElse condition thenBranch (← statement)
  | none => return .ifThen condition thenBranch

/-- The rest of a `while` loop. -/
def whileLoop (statement : Reader Stmt) : Reader Stmt := do
  expect .parenAfterWhile
  let condition ← expression
  expect .parenAfterWhileCondition
  return .loop condition (← statement)

/-- The first clause of a `for` loop with its semicolon. -/
def initializer : Reader (Option Stmt) := do
  match ← take? .semicolon with
  | some _ => return none
  | none => some <$> declaration expressionStatement

/-- The rest of a `for` loop. -/
def forLoop (statement : Reader Stmt) : Reader Stmt := do
  expect .parenAfterFor
  let first ← initializer
  let condition ← optionalBefore .semicolon expression
  expect .semicolonAfterLoopCondition
  let increment ← optionalBefore .rightParen expression
  expect .parenAfterForClauses
  return .forLoop first condition increment (← statement)

/-- A statement whose parts are read by a given reader. -/
def statementOf (part : Reader Stmt) : Reader Stmt := fun
  | [] => expressionStatement []
  | t :: rest =>
      match t.kind with
      | .printWord => printed rest
      | .leftBrace => block (declaration part) rest
      | .ifWord => conditional part rest
      | .whileWord => whileLoop part rest
      | .forWord => forLoop part rest
      | _ => expressionStatement (t :: rest)

/-- A statement of at most `n` tokens. -/
def statementWithin : Nat → Reader Stmt
  | 0 => fail .noExpression
  | n + 1 => statementOf (statementWithin n)

/-- A statement. -/
def statement : Reader Stmt := fun tokens => statementWithin tokens.length tokens

end Reader
end Lox
