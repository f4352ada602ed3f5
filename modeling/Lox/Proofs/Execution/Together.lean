import Lox.Execution.Statement
import Mathlib.Logic.Basic

/-!
Two runs side by side. They go together, for a relation of machines, if on any two machines in that
relation they come to the same and leave machines in it. What is made of runs that go together goes
together, so that only the smallest steps of a program have to be compared.
-/

namespace Lox

namespace Machine

variable {α : Type}

/-- On machines in a relation, two runs come to the same and leave machines in it. -/
def Together (R : Machine → Machine → Prop) (f f' : Machine → α × Machine) : Prop :=
  ∀ m m', R m m' → (f' m').1 = (f m).1 ∧ R (f m).2 (f' m').2

def finish (m : Machine) : Ending × Machine := (.finished, m)

def withValue (e : Expr) (next : Value → Machine → Ending × Machine) (m : Machine) :
    Ending × Machine :=
  match m.eval e with
  | (.ok v, m) => next v m
  | (.error x, m) => (.failed x, m)

def andThen (first next : Machine → Ending × Machine) (m : Machine) : Ending × Machine :=
  match first m with
  | (.finished, m) => next m
  | (ending, m) => (ending, m)

def choose (condition : Expr) (f g : Machine → Ending × Machine) : Machine → Ending × Machine :=
  withValue condition fun v => if v.truthy then f else g

theorem repeatWhile_succ (condition : Expr) (body : Machine → Ending × Machine) (n : Nat) :
    repeatWhile condition body (n + 1) =
      choose condition (andThen body (repeatWhile condition body n)) finish := by
  funext m
  rw [repeatWhile, choose, withValue]
  rcases m.eval condition with ⟨_ | v, m₁⟩
  · rfl
  · dsimp only
    cases v.truthy <;> rfl

section

variable {R R' : Machine → Machine → Prop}

/-- Changes that keep two machines in the relation, after which both runs end alike. -/
theorem together_step (a : α) {change change' : Machine → Machine}
    (h : ∀ m m', R m m' → R (change m) (change' m')) :
    Together R (fun m => (a, change m)) fun m => (a, change' m) :=
  fun m m' related => ⟨rfl, h m m' related⟩

theorem together_finish : Together R finish finish :=
  together_step Ending.finished fun _ _ related => related

theorem Together.inScope {f f' : Machine → α × Machine} (h : Together R' f f')
    (opened : ∀ m m', R m m' → R' m.push m'.push ∧ ∀ n n', R' n n' → R n.pop n'.pop) :
    Together R (Machine.inScope f) (Machine.inScope f') := by
  intro m m' related
  obtain ⟨pushed, popped⟩ := opened m m' related
  obtain ⟨same, ran⟩ := h _ _ pushed
  exact ⟨same, popped _ _ ran⟩

theorem Together.withValue {e : Expr} {next next' : Value → Machine → Ending × Machine}
    (evaluated : Together R (Machine.eval e) (Machine.eval e))
    (h : ∀ v, Together R (next v) (next' v)) :
    Together R (Machine.withValue e next) (Machine.withValue e next') := by
  intro m m' related
  obtain ⟨same, after⟩ := evaluated m m' related
  rw [Machine.withValue, Machine.withValue]
  cases he : m.eval e with
  | mk r m₁ =>
      cases he' : m'.eval e with
      | mk r' m₁' =>
          rw [he, he'] at same after
          obtain rfl : r' = r := same
          cases r' with
          | ok v => exact h v m₁ m₁' after
          | error x => exact ⟨rfl, after⟩

theorem Together.andThen {f f' g g' : Machine → Ending × Machine} (first : Together R f f')
    (h : Together R g g') : Together R (Machine.andThen f g) (Machine.andThen f' g') := by
  intro m m' related
  obtain ⟨same, after⟩ := first m m' related
  rw [Machine.andThen, Machine.andThen]
  cases hf : f m with
  | mk ending m₁ =>
      cases hf' : f' m' with
      | mk ending' m₁' =>
          rw [hf, hf'] at same after
          obtain rfl : ending' = ending := same
          cases ending' with
          | finished => exact h m₁ m₁' after
          | failed _ | cutOff => exact ⟨rfl, after⟩

theorem Together.choose {condition : Expr} {f f' g g' : Machine → Ending × Machine}
    (evaluated : Together R (Machine.eval condition) (Machine.eval condition))
    (hf : Together R f f') (hg : Together R g g') :
    Together R (Machine.choose condition f g) (Machine.choose condition f' g') :=
  evaluated.withValue fun v => by
    cases v.truthy with
    | true => exact hf
    | false => exact hg

/-- A loop turns as often on both machines. -/
theorem Together.repeatWhile {condition : Expr} {body body' : Machine → Ending × Machine}
    (evaluated : Together R (Machine.eval condition) (Machine.eval condition))
    (h : Together R body body') (n : Nat) :
    Together R (Machine.repeatWhile condition body n)
      (Machine.repeatWhile condition body' n) := by
  induction n with
  | zero => exact together_step Ending.cutOff fun _ _ related => related
  | succ n ih =>
      rw [repeatWhile_succ, repeatWhile_succ]
      exact evaluated.choose (h.andThen ih) together_finish

end

end Machine

namespace Stmt

variable (limit : Nat)

theorem run_ifThen (condition : Expr) (s : Stmt) :
    run limit (.ifThen condition s) =
      Machine.choose condition (s.run limit) Machine.finish := by
  funext m
  rw [run, Machine.choose, Machine.withValue]
  rcases m.eval condition with ⟨_ | v, m₁⟩
  · rfl
  · dsimp only
    cases v.truthy <;> rfl

theorem run_ifElse (condition : Expr) (s s' : Stmt) :
    run limit (.ifElse condition s s') =
      Machine.choose condition (s.run limit) (s'.run limit) := by
  funext m
  rw [run, Machine.choose, Machine.withValue]
  rcases m.eval condition with ⟨_ | v, m₁⟩
  · rfl
  · dsimp only
    cases v.truthy <;> rfl

theorem runAll_cons_eq (s : Stmt) (rest : List Stmt) :
    runAll limit (s :: rest) = Machine.andThen (s.run limit) (runAll limit rest) := rfl

end Stmt

end Lox
