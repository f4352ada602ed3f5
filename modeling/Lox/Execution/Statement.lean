import Lox.Execution.Expression
import Lox.Output

/-!
Execution of statements. A loop may go on for ever, so an execution is given a limit on the turns of
each loop; a run that reaches it is cut off, and one that does not is not affected by it.
-/

namespace Lox

/-- What a run works on: the scopes, and what has been printed. -/
structure Machine where
  environment : Environment
  output : Output
  deriving DecidableEq, Repr, Inhabited

/-- How a run ends. -/
inductive Ending
  | finished
  | failed (error : RuntimeError)
  /-- Some loop reached the limit. -/
  | cutOff
  deriving DecidableEq, Repr, Inhabited

namespace Machine

/-- Nothing bound and nothing printed. -/
def empty : Machine := ⟨.empty, .empty⟩

def eval (e : Expr) (m : Machine) : Except RuntimeError Value × Machine :=
  let ⟨environment, output⟩ := m
  let (result, environment) := e.eval environment
  (result, ⟨environment, output⟩)

def define (m : Machine) (name : String) (value : Value) : Machine :=
  let ⟨environment, output⟩ := m
  ⟨environment.define name value, output⟩

def printLine (m : Machine) (text : String) : Machine :=
  let ⟨environment, output⟩ := m
  ⟨environment, output.printLine text⟩

def push (m : Machine) : Machine :=
  let ⟨environment, output⟩ := m
  ⟨environment.push, output⟩

def pop (m : Machine) : Machine :=
  let ⟨environment, output⟩ := m
  ⟨environment.pop, output⟩

/-- Runs in a scope of its own, which is closed however the run ends. -/
def inScope {α : Type} (run : Machine → α × Machine) (m : Machine) : α × Machine :=
  let (result, m) := run m.push
  (result, m.pop)

/-- Repeats a body while a condition holds, for at most `n` turns. -/
def repeatWhile (condition : Expr) (body : Machine → Ending × Machine) :
    Nat → Machine → Ending × Machine
  | 0, m => (.cutOff, m)
  | n + 1, m =>
      match m.eval condition with
      | (.error problem, m) => (.failed problem, m)
      | (.ok v, m) =>
          if v.truthy then
            match body m with
            | (.finished, m) => repeatWhile condition body n m
            | (ending, m) => (ending, m)
          else (.finished, m)

end Machine

mutual

/-- Runs a statement. -/
def Stmt.run (limit : Nat) : Stmt → Machine → Ending × Machine
  | .expression e, m =>
      match m.eval e with
      | (.ok _, m) => (.finished, m)
      | (.error problem, m) => (.failed problem, m)
  | .print e, m =>
      match m.eval e with
      | (.ok v, m) => (.finished, m.printLine v.text)
      | (.error problem, m) => (.failed problem, m)
  | .declare name none _, m => (.finished, m.define name .nil)
  | .declare name (some e) _, m =>
      match m.eval e with
      | (.ok v, m) => (.finished, m.define name v)
      | (.error problem, m) => (.failed problem, m)
  | .block body, m => m.inScope (Stmt.runAll limit body)
  | .ifThen condition thenBranch, m =>
      match m.eval condition with
      | (.ok v, m) => if v.truthy then thenBranch.run limit m else (.finished, m)
      | (.error problem, m) => (.failed problem, m)
  | .ifElse condition thenBranch elseBranch, m =>
      match m.eval condition with
      | (.ok v, m) => if v.truthy then thenBranch.run limit m else elseBranch.run limit m
      | (.error problem, m) => (.failed problem, m)
  | .loop condition body, m => Machine.repeatWhile condition (body.run limit) limit m

/-- Runs statements in order, up to the first that does not finish. -/
def Stmt.runAll (limit : Nat) : List Stmt → Machine → Ending × Machine
  | [], m => (.finished, m)
  | s :: rest, m =>
      match s.run limit m with
      | (.finished, m) => Stmt.runAll limit rest m
      | (ending, m) => (ending, m)

end

/-- Runs statements in a scope of their own. -/
def Machine.runBlock (limit : Nat) (body : List Stmt) (m : Machine) : Ending × Machine :=
  m.inScope (Stmt.runAll limit body)

end Lox
