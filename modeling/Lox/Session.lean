import Lox.Execution.Statement
import Lox.Script

/-!
Sessions: scripts that run one after the other and see the same global variables.
-/

namespace Lox

/-- What went wrong in a run, if anything. -/
structure Outcome where
  syntaxError : Bool := false
  runtimeError : Bool := false
  deriving DecidableEq, Repr, Inhabited

namespace Outcome

def success (o : Outcome) : Bool := !o.syntaxError && !o.runtimeError

/-- The exit code of a process that ran a script. -/
def exitCode (o : Outcome) : Nat :=
  if o.syntaxError then 65 else if o.runtimeError then 70 else 0

end Outcome

/-- What a run showed. -/
structure Report where
  outcome : Outcome
  printed : String
  diagnostics : List Diagnostic
  deriving DecidableEq, Repr, Inhabited

/-- The names registered and the variables bound so far. -/
structure Session where
  names : NameTable := .empty
  environment : Environment := .empty
  deriving DecidableEq, Repr, Inhabited

namespace Session

def empty : Session := {}

/-- Runs a script. One with errors in its text or its statements only reports them and registers its
names; otherwise its statements run, up to the first that fails. There is no report on a run that is
cut off. -/
def run (limit : Nat) (text : String) (s : Session) : Option (Report × Session) :=
  let script := Script.ofText text
  let names := s.names.insertTokens script.reading.tokens
  match script.diagnostics with
  | [] =>
      match Stmt.runAll limit script.statements ⟨s.environment, .empty⟩ with
      | (.finished, m) => some (⟨{}, m.output.text, []⟩, ⟨names, m.environment⟩)
      | (.failed error, m) =>
          some (⟨{ runtimeError := true }, m.output.text, [error.diagnostic]⟩,
            ⟨names, m.environment⟩)
      | (.cutOff, _) => none
  | diagnostics => some (⟨{ syntaxError := true }, "", diagnostics⟩, ⟨names, s.environment⟩)

end Session
end Lox
