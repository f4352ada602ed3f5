import Lox.Proofs.Execution.Together
import Lox.Proofs.Execution.Visit
import Lox.Proofs.Phrase.Wording
import Lox.Proofs.Scope.Padding

/-!
Runs on machines that differ by empty scopes. Two runs agree if they come to the same on any two
machines that differ by certain empty scopes, and leave machines that differ by the same ones. What
is made of runs that agree agrees, also if one of the two is in a scope of its own in which it binds
nothing.
-/

namespace Lox

namespace Machine

/-- Two machines that have printed the same, where the frames of the second are those of the first
with empty ones put among them. -/
structure Pads (gaps : List Bool) (m m' : Machine) : Prop where
  linked : m.environment.Linked
  padded_linked : m'.environment.Linked
  output : m'.output = m.output
  stack : m'.environment.stack = Stack.pad gaps m.environment.stack

/-- On machines that differ by empty frames two runs come to the same, and leave machines that
differ by the same empty frames. They leave as many frames as they find. -/
def Agree {α : Type} (gaps : List Bool) (f f' : Machine → α × Machine) : Prop :=
  ∀ m m', Pads gaps m m' → (f' m').1 = (f m).1 ∧ Pads gaps (f m).2 (f' m').2 ∧
    (f m).2.environment.stack.length = m.environment.stack.length

def PadsAt (gaps : List Bool) (n : Nat) (m m' : Machine) : Prop :=
  Pads gaps m m' ∧ m.environment.stack.length = n

/-- No empty frame is put in front of the innermost one. -/
def Aligned (gaps : List Bool) : Prop := gaps.head? ≠ some true

theorem aligned_nil : Aligned [] := by
  simp [Aligned]

theorem aligned_false (gaps : List Bool) : Aligned (false :: gaps) := by
  simp [Aligned]

variable {α : Type} {gaps : List Bool}

/-- Runs agree if they go together, however many frames there are. -/
theorem agree_iff {f f' : Machine → α × Machine} :
    Agree gaps f f' ↔ ∀ n, Together (PadsAt gaps n) f f' := by
  constructor
  · rintro h n m m' ⟨pads, rfl⟩
    exact h m m' pads
  · exact fun h m m' pads => h _ m m' ⟨pads, rfl⟩

/-- Nothing is done. -/
theorem agree_idle (a : α) : Agree gaps (fun m => (a, m)) (fun m => (a, m)) :=
  fun _ _ pads => ⟨rfl, pads, rfl⟩

theorem agree_eval (e : Expr) : Agree gaps (eval e) (eval e) := by
  intro m m' pads
  have evaluates {r : Except RuntimeError Value} {m₁ : Machine} (he : m.eval e = (r, m₁))
      (linked : m₁.environment.Linked) (out : m₁.output = m.output)
      (derived : e.Evaluates m.environment.stack r m₁.environment.stack) :
      (m'.eval e).1 = (m.eval e).1 ∧ Pads gaps (m.eval e).2 (m'.eval e).2 ∧
        (m.eval e).2.environment.stack.length = m.environment.stack.length := by
    obtain ⟨env, he', linked', stack⟩ := (derived.pad gaps).eval_eq pads.padded_linked pads.stack
    have he' : m'.eval e = (r, ⟨env, m'.output⟩) := eval_eq_iff.2 ⟨he', rfl⟩
    rw [he, he']
    exact ⟨rfl, ⟨linked, linked', pads.output.trans out.symm, stack⟩, derived.length_eq⟩
  obtain ⟨v, m₁, he, linked, out, derived⟩ | ⟨x, m₁, he, linked, out, derived⟩ :=
    eval_cases e pads.linked
  · exact evaluates he linked out derived
  · exact evaluates he linked out derived

theorem agree_printLine (text : String) :
    Agree gaps (fun m => (Ending.finished, m.printLine text))
      (fun m => (.finished, m.printLine text)) :=
  fun _ _ pads => ⟨rfl,
    ⟨pads.linked, pads.padded_linked, congrArg (Output.printLine · text) pads.output, pads.stack⟩,
    rfl⟩

/-- A name is bound in the innermost frame, in front of which there must be no other. -/
theorem agree_define (aligned : Aligned gaps) (name : String) (v : Value) :
    Agree gaps (fun m => (Ending.finished, m.define name v))
      (fun m => (.finished, m.define name v)) := by
  intro m m' pads
  obtain ⟨f, σ, hs⟩ := List.exists_cons_of_ne_nil m.environment.stack_ne_nil
  obtain ⟨τ, padded, inserted⟩ : ∃ τ, Stack.pad gaps (f :: σ) = f :: τ ∧
      Stack.pad gaps (f.insert name v :: σ) = f.insert name v :: τ := by
    cases gaps with
    | nil => exact ⟨σ, rfl, rfl⟩
    | cons gap gaps =>
        cases gap with
        | true => exact absurd rfl aligned
        | false => exact ⟨_, rfl, rfl⟩
  obtain ⟨linked, stack⟩ := pads.linked.define hs name v
  obtain ⟨linked', stack'⟩ := pads.padded_linked.define (pads.stack.trans (hs ▸ padded)) name v
  refine ⟨rfl, ⟨linked, linked', pads.output, ?_⟩, ?_⟩
  · show (m'.environment.define name v).stack = Stack.pad gaps (m.environment.define name v).stack
    rw [stack, stack', inserted]
  · show (m.environment.define name v).stack.length = _
    rw [stack, hs]
    rfl

section inScope

variable {f f' : Machine → α × Machine}

/-- Both runs in a scope of their own. -/
theorem Agree.inScope (h : Agree (false :: gaps) f f') :
    Agree gaps (Machine.inScope f) (Machine.inScope f') := by
  refine agree_iff.2 fun n => (agree_iff.1 h (n + 1)).inScope ?_
  rintro m m' ⟨pads, rfl⟩
  obtain ⟨linked, stack⟩ := pads.linked.push
  obtain ⟨linked', stack'⟩ := pads.padded_linked.push
  refine ⟨⟨⟨linked, linked', pads.output, ?_⟩, congrArg List.length stack⟩, ?_⟩
  · show m'.environment.push.stack = Stack.pad (false :: gaps) m.environment.push.stack
    rw [stack, stack', pads.stack]
    rfl
  · rintro m₁ m₁' ⟨ran, size⟩
    obtain ⟨g, σ, hs⟩ := List.exists_cons_of_ne_nil m₁.environment.stack_ne_nil
    rw [hs] at size
    have size : σ.length = m.environment.stack.length := Nat.succ.inj size
    have hσ : σ ≠ [] := by
      rintro rfl
      exact m.environment.stack_ne_nil (List.length_eq_zero_iff.1 size.symm)
    have hs' : m₁'.environment.stack = g :: Stack.pad gaps σ := by
      rw [ran.stack, hs]
      rfl
    obtain ⟨linked₁, stack₁⟩ := ran.linked.pop hs hσ
    obtain ⟨linked₂, stack₂⟩ := ran.padded_linked.pop hs' (Stack.pad_ne_nil gaps hσ)
    have popped : m₁.pop.environment.stack = σ := stack₁
    exact ⟨⟨linked₁, linked₂, ran.output, by rw [popped]; exact stack₂⟩, by rw [popped, size]⟩

/-- The second run in a scope of its own, in which it binds nothing. -/
theorem Agree.inEmptyScope (h : Agree (true :: gaps) f f') :
    Agree gaps f (Machine.inScope f') := by
  intro m m' pads
  obtain ⟨linked', stack'⟩ := pads.padded_linked.push
  have pushed : Pads (true :: gaps) m m'.push :=
    ⟨pads.linked, linked', pads.output, by
      show m'.environment.push.stack = _
      rw [stack', pads.stack]
      rfl⟩
  obtain ⟨same, ran, size⟩ := h _ _ pushed
  have padded : Stack.pad gaps (f m).2.environment.stack ≠ [] :=
    Stack.pad_ne_nil gaps (f m).2.environment.stack_ne_nil
  obtain ⟨linked₂, stack₂⟩ := ran.padded_linked.pop ran.stack padded
  exact ⟨same, ⟨ran.linked, linked₂, ran.output, stack₂⟩, size⟩

end inScope

theorem agree_finish : Agree gaps finish finish := agree_idle Ending.finished

theorem Agree.withValue (e : Expr) {next next' : Value → Machine → Ending × Machine}
    (h : ∀ v, Agree gaps (next v) (next' v)) :
    Agree gaps (Machine.withValue e next) (Machine.withValue e next') :=
  agree_iff.2 fun n => (agree_iff.1 (agree_eval e) n).withValue fun v => agree_iff.1 (h v) n

theorem Agree.andThen {f f' g g' : Machine → Ending × Machine} (first : Agree gaps f f')
    (h : Agree gaps g g') : Agree gaps (Machine.andThen f g) (Machine.andThen f' g') :=
  agree_iff.2 fun n => (agree_iff.1 first n).andThen (agree_iff.1 h n)

theorem Agree.choose (condition : Expr) {f f' g g' : Machine → Ending × Machine}
    (hf : Agree gaps f f') (hg : Agree gaps g g') :
    Agree gaps (Machine.choose condition f g) (Machine.choose condition f' g') :=
  agree_iff.2 fun n =>
    (agree_iff.1 (agree_eval condition) n).choose (agree_iff.1 hf n) (agree_iff.1 hg n)

theorem Agree.repeatWhile (condition : Expr) {body body' : Machine → Ending × Machine}
    (h : Agree gaps body body') (n : Nat) :
    Agree gaps (Machine.repeatWhile condition body n)
      (Machine.repeatWhile condition body' n) :=
  agree_iff.2 fun frames =>
    (agree_iff.1 (agree_eval condition) frames).repeatWhile (agree_iff.1 h frames) n

end Machine

namespace Stmt

theorem runAll_singleton (limit : Nat) (s : Stmt) : runAll limit [s] = s.run limit := by
  funext m
  rw [runAll_cons]
  split
  · rename_i finished
    exact Prod.ext finished.symm rfl
  · rfl

/-- A plain statement agrees with itself, a declaration only if it binds its name in the same
frame. -/
theorem agree_plain (limit : Nat) (s : Stmt) (plain : s.Plain) {gaps : List Bool}
    (aligned : s.isDeclaration = true → Machine.Aligned gaps) :
    Machine.Agree gaps (s.run limit) (s.run limit) := by
  cases s with
  | expression e => exact Machine.Agree.withValue e fun _ => Machine.agree_finish
  | print e => exact Machine.Agree.withValue e fun v => Machine.agree_printLine v.text
  | declare name init line =>
      cases init with
      | none => exact Machine.agree_define (aligned rfl) name .nil
      | some e =>
          exact Machine.Agree.withValue e fun v => Machine.agree_define (aligned rfl) name v
  | block | ifThen | ifElse | loop => cases plain

end Stmt
end Lox
