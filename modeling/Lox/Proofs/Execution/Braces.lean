import Lox.Proofs.Execution.Padding
import Lox.Proofs.Phrase.Canonical
import Lox.Proofs.Phrase.Placement

/-!
Braces around a statement make no difference, unless the statement is a declaration. A scope that is
opened for a statement which declares nothing stays empty, and is seen by nothing inside it.
-/

namespace Lox

namespace Stmt

/-- A statement in braces of its own if they are asked for. A declaration gets none. -/
def brace (asked : Bool) (s : Stmt) : Stmt :=
  if asked && !s.isDeclaration then .block [s] else s

mutual

/-- A statement with braces around those of the statements in it, and around itself, that are at
chosen places. A place is given by the way there, as in `Node.at?`. -/
def braced (chosen : List Nat → Bool) : Stmt → Stmt
  | .expression e => brace (chosen []) (.expression e)
  | .print e => brace (chosen []) (.print e)
  | .declare name init line => .declare name init line
  | .block body => brace (chosen []) (.block (allBraced (fun way => chosen (0 :: way)) 0 body))
  | .ifThen e s => brace (chosen []) (.ifThen e (s.braced fun way => chosen (1 :: way)))
  | .ifElse e s s' =>
      brace (chosen []) (.ifElse e (s.braced fun way => chosen (1 :: way))
        (s'.braced fun way => chosen (2 :: way)))
  | .loop e s => brace (chosen []) (.loop e (s.braced fun way => chosen (1 :: way)))

def allBraced (chosen : List Nat → Bool) : Nat → List Stmt → List Stmt
  | _, [] => []
  | i, s :: rest => s.braced (fun way => chosen (i :: way)) :: allBraced chosen (i + 1) rest

end

/-- A statement in braces agrees with whatever the statement agrees with when there is an empty
frame in front of the others. -/
theorem agree_brace {limit : Nat} {f : Machine → Ending × Machine} {s : Stmt} {gaps : List Bool}
    (asked : Bool) (h : ∀ gaps, Machine.Agree gaps f (s.run limit)) :
    Machine.Agree gaps f ((s.brace asked).run limit) := by
  rw [brace]
  split
  · have inner : Machine.Agree (true :: gaps) f (runAll limit [s]) := by
      rw [runAll_singleton]
      exact h (true :: gaps)
    exact inner.inEmptyScope
  · exact h gaps

variable (limit : Nat)

mutual

/-- A statement and what it is with braces agree, where a declaration must bind its name in the same
frame. -/
theorem agree_braced (s : Stmt) (placed : s.Placed) (chosen : List Nat → Bool) (gaps : List Bool)
    (aligned : s.isDeclaration = true → Machine.Aligned gaps) :
    Machine.Agree gaps (s.run limit) ((s.braced chosen).run limit) := by
  cases s with
  | expression e =>
      exact agree_brace _ fun gaps => agree_plain limit (.expression e) trivial nofun
  | print e => exact agree_brace _ fun gaps => agree_plain limit (.print e) trivial nofun
  | declare name init line => exact agree_plain limit (.declare name init line) trivial aligned
  | block body =>
      exact agree_brace _ fun gaps =>
        (agree_allBraced body placed _ 0 (false :: gaps) (Machine.aligned_false gaps)).inScope
  | ifThen e s =>
      refine agree_brace _ fun gaps => ?_
      rw [run_ifThen, run_ifThen]
      exact Machine.Agree.choose e (agree_braced s placed.2 _ gaps (by simp [placed.1]))
        Machine.agree_finish
  | ifElse e s s' =>
      refine agree_brace _ fun gaps => ?_
      rw [run_ifElse, run_ifElse]
      exact Machine.Agree.choose e (agree_braced s placed.1.2 _ gaps (by simp [placed.1.1]))
        (agree_braced s' placed.2.2 _ gaps (by simp [placed.2.1]))
  | loop e s =>
      exact agree_brace _ fun gaps =>
        Machine.Agree.repeatWhile e (agree_braced s placed.2 _ gaps (by simp [placed.1])) limit

theorem agree_allBraced (body : List Stmt) (placed : AllPlaced body) (chosen : List Nat → Bool)
    (i : Nat) (gaps : List Bool) (aligned : Machine.Aligned gaps) :
    Machine.Agree gaps (runAll limit body) (runAll limit (allBraced chosen i body)) := by
  cases body with
  | nil => exact Machine.agree_finish
  | cons s rest =>
      exact (agree_braced s placed.1 _ gaps fun _ => aligned).andThen
        (agree_allBraced rest placed.2 chosen (i + 1) gaps aligned)

end

end Stmt

/-- Braces around any statements of a program that are no declarations change nothing: from every
machine and under every limit, the program with them ends in the same way, has printed the same, and
leaves the same values bound in every scope that was open. -/
theorem Program.run_ignores_braces (tokens : List Token) (chosen : List Nat → Bool) (limit : Nat)
    (m : Machine) (linked : m.environment.Linked) :
    let body := (ofTokens tokens).statements
    let run := Stmt.runAll limit body m
    let run' := Stmt.runAll limit (Stmt.allBraced chosen 0 body) m
    run'.1 = run.1 ∧ run'.2.output = run.2.output ∧
      run'.2.environment.stack = run.2.environment.stack := by
  intro body run run'
  obtain ⟨ending, pads, -⟩ := Stmt.agree_allBraced limit body (placed_ofTokens tokens) chosen 0 []
    Machine.aligned_nil m m ⟨linked, linked, rfl, rfl⟩
  exact ⟨ending, pads.output, pads.stack⟩

theorem Program.run_ignores_braces_everywhere :
    let body := [
      Stmt.declare "y" (some (.var "x" 1)) 1,
      .loop (.var "y" 1) (.block [
        .ifElse (.var "y" 1) (.print (.var "x" 1)) (.print (.var "y" 1)),
        .expression (.assign "y" 1 (.literal (.bool false)))]),
      .print (.var "z" 1)]
    let body' := [
      Stmt.declare "y" (some (.var "x" 1)) 1,
      .block [.loop (.var "y" 1) (.block [.block [
        .block [.ifElse (.var "y" 1) (.block [.print (.var "x" 1)])
          (.block [.print (.var "y" 1)])],
        .block [.expression (.assign "y" 1 (.literal (.bool false)))]]])],
      .block [.print (.var "z" 1)]]
    let m : Machine := ⟨(Environment.empty.define "x" (.string "a")).push, .empty⟩
    m.environment.Linked ∧ (ofTokens (written body ++ [Lexical.eofAt 1])).statements = body ∧
      Stmt.allBraced (fun _ => true) 0 body = body' ∧
      (Stmt.runAll 2 body' m).1 = .failed ⟨.undefinedVariable "z", 1⟩ ∧
      (Stmt.runAll 2 body' m).2.output = ⟨"a\n"⟩ ∧
      (Stmt.runAll 2 body' m).2.environment.stack =
        (Stmt.runAll 2 body m).2.environment.stack := by
  intro body body' m
  have linked : m.environment.Linked :=
    (Environment.linked_empty.define rfl "x" (.string "a")).1.push.1
  have shown : ((Stmt.runAll 2 body m).1, (Stmt.runAll 2 body m).2.output) =
      (.failed ⟨.undefinedVariable "z", 1⟩, ⟨"a\n"⟩) := by decide +kernel
  have read : (ofTokens (written body ++ [Lexical.eofAt 1])).statements = body :=
    congrArg statements (ofTokens_of_fits (by simp [body, Stmt.AllCanonical, Stmt.Canonical,
      Expr.Canonical, Stmt.isDeclaration, Stmt.endsOpen]) (written_fits body) rfl)
  have braced : Stmt.allBraced (fun _ => true) 0 body = body' := rfl
  obtain ⟨ending, output, stack⟩ :=
    run_ignores_braces (written body ++ [Lexical.eofAt 1]) (fun _ => true) 2 m linked
  rw [read, braced] at ending output stack
  obtain ⟨failed, printed⟩ := Prod.mk.inj shown
  exact ⟨linked, read, braced, ending.trans failed, output.trans printed, stack⟩

end Lox
