import Lox.Proofs.Execution.Together
import Lox.Proofs.Relabel.Tree

/-!
A run looks neither at lines nor at what has been printed. On other lines and with more printed
before, a program prints the same, ends in the same way but for the line, and leaves the same values
bound.
-/

namespace Lox

def Machine.after (before : String) (m : Machine) : Machine :=
  ⟨m.environment, ⟨before ++ m.output.text⟩⟩

section

variable (line : Nat → Nat)

def RuntimeError.relabel (e : RuntimeError) : RuntimeError := ⟨e.problem, line e.line⟩

theorem RuntimeError.mapError_relabel_ok (v : Value) :
    (.ok v : Except RuntimeError Value).mapError (relabel line) = .ok v := rfl

def Ending.relabel : Ending → Ending
  | finished => finished
  | failed e => failed (e.relabel line)
  | cutOff => cutOff

theorem UnaryOp.apply_relabel (op : UnaryOp) (n : Nat) (v : Value) :
    op.apply (line n) v = (op.apply n v).mapError (RuntimeError.relabel line) := by
  cases op <;> cases v <;> rfl

theorem BinaryOp.apply_relabel (op : BinaryOp) (n : Nat) (l r : Value) :
    op.apply (line n) l r = (op.apply n l r).mapError (RuntimeError.relabel line) := by
  cases op <;> cases l <;> cases r <;> rfl

/-- An expression on other lines comes to the same, but for the line of a failure. -/
theorem Expr.eval_relabel (e : Expr) (env : Environment) :
    (e.relabel (.ofLines line)).eval env =
      ((e.eval env).1.mapError (RuntimeError.relabel line), (e.eval env).2) := by
  induction e generalizing env with
  | literal v =>
      rw [relabel, Value.relabel_ofLines]
      rfl
  | grouping e ih => exact ih env
  | unary op n e ih =>
      simp only [relabel, eval, ih env]
      cases e.eval env with
      | mk r env₁ =>
          cases r with
          | ok v => exact Prod.ext (op.apply_relabel line n v) rfl
          | error x => rfl
  | binary op n l r ihl ihr =>
      simp only [relabel, eval, ihl env]
      cases l.eval env with
      | mk v env₁ =>
          cases v with
          | error x => rfl
          | ok v =>
              simp only [RuntimeError.mapError_relabel_ok, ihr env₁]
              cases r.eval env₁ with
              | mk w env₂ =>
                  cases w with
                  | ok w => exact Prod.ext (op.apply_relabel line n v w) rfl
                  | error x => rfl
  | logical op l r ihl ihr =>
      simp only [relabel, eval, ihl env]
      cases l.eval env with
      | mk v env₁ =>
          cases v with
          | error x => rfl
          | ok v =>
              simp only [RuntimeError.mapError_relabel_ok]
              split
              · rfl
              · exact ihr env₁
  | var name n =>
      simp only [relabel, Relabeling.ofLines, id, eval]
      cases env.lookup name <;> rfl
  | assign name n e ih =>
      simp only [relabel, eval, ih env]
      cases e.eval env with
      | mk r env₁ =>
          cases r with
          | error x => rfl
          | ok v =>
              simp only [RuntimeError.mapError_relabel_ok, Relabeling.ofLines, id]
              cases env₁.assign? name v <;> rfl

namespace Machine

theorem eval_relabel (before : String) (e : Expr) (m : Machine) :
    (m.after before).eval (e.relabel (.ofLines line)) =
      ((m.eval e).1.mapError (RuntimeError.relabel line), (m.eval e).2.after before) := by
  obtain ⟨env, out⟩ := m
  simp only [eval, after, Expr.eval_relabel]

theorem printLine_after (before : String) (m : Machine) (text : String) :
    (m.after before).printLine text = (m.printLine text).after before := by
  simp [after, printLine, Output.printLine, Output.print, String.append_assoc]

/-- On a machine that has printed more before, the second run does what the first one does, but for
the line of a failure. -/
def Moved (before : String) (f f' : Machine → Ending × Machine) : Prop :=
  ∀ m, f' (m.after before) = ((f m).1.relabel line, (f m).2.after before)

section

variable {line} {before : String} {f f' g g' : Machine → Ending × Machine}

theorem moved_finish : Moved line before finish finish := fun _ => rfl

theorem moved_define (name : String) (v : Value) :
    Moved line before (fun m => (.finished, m.define name v))
      (fun m => (.finished, m.define name v)) := fun _ => rfl

theorem moved_printLine (text : String) :
    Moved line before (fun m => (.finished, m.printLine text))
      (fun m => (.finished, m.printLine text)) :=
  fun m => Prod.ext rfl (m.printLine_after before text)

theorem Moved.inScope (h : Moved line before f f') :
    Moved line before (Machine.inScope f) (Machine.inScope f') := by
  intro m
  have opened : (m.after before).push = m.push.after before := rfl
  rw [Machine.inScope, opened, h m.push]
  rfl

theorem Moved.withValue (e : Expr) {next next' : Value → Machine → Ending × Machine}
    (h : ∀ v, Moved line before (next v) (next' v)) :
    Moved line before (Machine.withValue e next)
      (Machine.withValue (e.relabel (.ofLines line)) next') := by
  intro m
  rw [Machine.withValue, Machine.withValue, eval_relabel]
  cases m.eval e with
  | mk r m₁ =>
      cases r with
      | ok v => exact h v m₁
      | error x => rfl

theorem Moved.andThen (first : Moved line before f f') (h : Moved line before g g') :
    Moved line before (Machine.andThen f g) (Machine.andThen f' g') := by
  intro m
  rw [Machine.andThen, Machine.andThen, first m]
  cases f m with
  | mk ending m₁ =>
      cases ending with
      | finished => exact h m₁
      | failed _ | cutOff => rfl

theorem Moved.choose (condition : Expr) (hf : Moved line before f f')
    (hg : Moved line before g g') :
    Moved line before (Machine.choose condition f g)
      (Machine.choose (condition.relabel (.ofLines line)) f' g') :=
  .withValue condition fun v => by
    cases v.truthy with
    | true => exact hf
    | false => exact hg

theorem Moved.repeatWhile (condition : Expr) (h : Moved line before f f') (n : Nat) :
    Moved line before (Machine.repeatWhile condition f n)
      (Machine.repeatWhile (condition.relabel (.ofLines line)) f' n) := by
  induction n with
  | zero => exact fun _ => rfl
  | succ n ih =>
      rw [repeatWhile_succ, repeatWhile_succ]
      exact .choose condition (h.andThen ih) moved_finish

end

end Machine

end

namespace Stmt

open Machine (Moved)

variable (line : Nat → Nat) (before : String) (limit : Nat)

mutual

/-- A statement on other lines does the same, but for the line of a failure. -/
theorem run_relabel (s : Stmt) :
    Moved line before (s.run limit) ((s.relabel (.ofLines line)).run limit) := by
  cases s with
  | expression e => exact .withValue e fun _ => Machine.moved_finish
  | print e => exact .withValue e fun v => Machine.moved_printLine v.text
  | declare name init _ =>
      cases init with
      | none => exact Machine.moved_define name .nil
      | some e => exact .withValue e fun v => Machine.moved_define name v
  | block body => exact (runAll_relabel body).inScope
  | ifThen e s =>
      rw [relabel, run_ifThen, run_ifThen]
      exact .choose e (run_relabel s) Machine.moved_finish
  | ifElse e s s' =>
      rw [relabel, run_ifElse, run_ifElse]
      exact .choose e (run_relabel s) (run_relabel s')
  | loop e s => exact (run_relabel s).repeatWhile e limit

theorem runAll_relabel (body : List Stmt) :
    Moved line before (runAll limit body) (runAll limit (relabelAll (.ofLines line) body)) := by
  cases body with
  | nil => exact Machine.moved_finish
  | cons s rest => exact (run_relabel s).andThen (runAll_relabel rest)

end

end Stmt
end Lox
