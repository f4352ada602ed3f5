import Lox.Phrase.Statement

/-!
Reading a list of tokens as a program.
-/

namespace Lox

/-- What tokens stand for: the statements that could be read, and the faults that were found. The
statements are all of the program only if there is no fault. -/
structure Program where
  statements : List Stmt
  faults : List Fault
  endLine : Nat
  deriving Repr, Inhabited

namespace Program

/-- The tokens before the first end mark. -/
def body (tokens : List Token) : List Token := tokens.takeWhile (·.kind != .eof)

/-- The line on which tokens end: that of the first end mark, without one that of the last token. -/
def lineOfEnd (tokens : List Token) : Nat :=
  match tokens.find? (·.kind == .eof) with
  | some t => t.line
  | none => (tokens.getLast?.map Token.line).getD 1

/-- The program that tokens stand for. Tokens after the first end mark do not count. -/
def ofTokens (tokens : List Token) : Program :=
  let all := Reader.declarations (Reader.declaration Reader.statement) .eof (body tokens)
  ⟨all.statements, all.passed, lineOfEnd tokens⟩

def diagnostics (p : Program) : List Diagnostic := p.faults.map (Fault.diagnostic p.endLine)

end Program
end Lox
