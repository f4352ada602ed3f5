import Lox.Proofs.Execution.Adequacy
import Lox.Proofs.Execution.Together
import Lox.Proofs.Names
import Lox.Proofs.Numbered.Tree
import Lox.Proofs.Scope.Growth
import Mathlib.Logic.Function.Basic

/-!
Runs on numbers. Scopes bind numbers, and a text is looked up in a table only where a string is
evaluated and where a name is reported. With the numbers of a table that knows all its texts, a
program prints the same and ends in the same way as on the texts, and leaves the same values bound
to the numbers.
-/

namespace Lox

namespace Numbered

abbrev Scope := Name → Option Value

abbrev Scopes := List Scope

namespace Scopes

def lookup (n : Name) : Scopes → Option Value
  | [] => none
  | f :: rest =>
      match f n with
      | some v => some v
      | none => lookup n rest

def assign? (n : Name) (v : Value) : Scopes → Option Scopes
  | [] => none
  | f :: rest =>
      if (f n).isSome then some (Function.update f n (some v) :: rest)
      else (assign? n v rest).map (f :: ·)

def define (n : Name) (v : Value) : Scopes → Scopes
  | [] => []
  | f :: rest => Function.update f n (some v) :: rest

def push (σ : Scopes) : Scopes := (fun _ => none) :: σ

def pop : Scopes → Scopes
  | _ :: f :: rest => f :: rest
  | σ => σ

end Scopes

def Literal.value (t : NameTable) : Literal → Value
  | nil => .nil
  | bool b => .bool b
  | number x => .number x
  | string n => .string (t.text n)

def Expr.eval (t : NameTable) : Expr → Scopes → Except RuntimeError Value × Scopes
  | literal v, σ => (.ok (v.value t), σ)
  | grouping inner, σ => inner.eval t σ
  | unary op line operand, σ =>
      match operand.eval t σ with
      | (.ok v, σ) => (op.apply line v, σ)
      | (.error problem, σ) => (.error problem, σ)
  | binary op line left right, σ =>
      match left.eval t σ with
      | (.ok l, σ) =>
          match right.eval t σ with
          | (.ok r, σ) => (op.apply line l r, σ)
          | (.error problem, σ) => (.error problem, σ)
      | (.error problem, σ) => (.error problem, σ)
  | logical op left right, σ =>
      match left.eval t σ with
      | (.ok l, σ) => if op.decidedBy l then (.ok l, σ) else right.eval t σ
      | (.error problem, σ) => (.error problem, σ)
  | var n line, σ =>
      match σ.lookup n with
      | some v => (.ok v, σ)
      | none => (.error ⟨.undefinedVariable (t.text n), line⟩, σ)
  | assign n line value, σ =>
      match value.eval t σ with
      | (.ok v, σ) =>
          match σ.assign? n v with
          | some σ => (.ok v, σ)
          | none => (.error ⟨.undefinedVariable (t.text n), line⟩, σ)
      | (.error problem, σ) => (.error problem, σ)

structure Machine where
  scopes : Scopes
  output : Output

namespace Machine

def eval (t : NameTable) (e : Expr) (m : Machine) : Except RuntimeError Value × Machine :=
  let (result, scopes) := e.eval t m.scopes
  (result, ⟨scopes, m.output⟩)

def define (m : Machine) (n : Name) (v : Value) : Machine := ⟨m.scopes.define n v, m.output⟩

def printLine (m : Machine) (text : String) : Machine := ⟨m.scopes, m.output.printLine text⟩

def finish (m : Machine) : Ending × Machine := (.finished, m)

def withValue (t : NameTable) (e : Expr) (next : Value → Machine → Ending × Machine)
    (m : Machine) : Ending × Machine :=
  match m.eval t e with
  | (.ok v, m) => next v m
  | (.error x, m) => (.failed x, m)

def andThen (first next : Machine → Ending × Machine) (m : Machine) : Ending × Machine :=
  match first m with
  | (.finished, m) => next m
  | (ending, m) => (ending, m)

def choose (t : NameTable) (condition : Expr) (f g : Machine → Ending × Machine) :
    Machine → Ending × Machine :=
  withValue t condition fun v => if v.truthy then f else g

def inScope (run : Machine → Ending × Machine) (m : Machine) : Ending × Machine :=
  let (ending, m) := run ⟨m.scopes.push, m.output⟩
  (ending, ⟨m.scopes.pop, m.output⟩)

def repeatWhile (t : NameTable) (condition : Expr) (body : Machine → Ending × Machine) :
    Nat → Machine → Ending × Machine
  | 0 => fun m => (.cutOff, m)
  | n + 1 => choose t condition (andThen body (repeatWhile t condition body n)) finish

end Machine

section

open Numbered.Machine

variable (t : NameTable) (limit : Nat)

mutual

def Stmt.run : Stmt → Machine → Ending × Machine
  | .expression e => withValue t e fun _ => finish
  | .print e => withValue t e fun v m => (.finished, m.printLine v.text)
  | .declare n none _ => fun m => (.finished, m.define n .nil)
  | .declare n (some e) _ => withValue t e fun v m => (.finished, m.define n v)
  | .block body => inScope (Stmt.runAll body)
  | .ifThen condition s => choose t condition s.run finish
  | .ifElse condition s s' => choose t condition s.run s'.run
  | .loop condition s => repeatWhile t condition s.run limit

def Stmt.runAll : List Stmt → Machine → Ending × Machine
  | [] => finish
  | s :: rest => andThen s.run (Stmt.runAll rest)

end

end

end Numbered

section

variable (t : NameTable)

/-- What a frame binds, by the numbers that a table gives. -/
def Frame.numbered (f : Frame) : Numbered.Scope := fun n =>
  if t.find? (t.text n) = some n then f.lookup (t.text n) else none

def Stack.numbered (σ : Stack) : Numbered.Scopes := σ.map (Frame.numbered t)

def Machine.numbered (m : Machine) : Numbered.Machine :=
  ⟨Stack.numbered t m.environment.stack, m.output⟩

end

open Numbered (Scopes)

variable {t : NameTable}

section scopes

theorem Frame.numbered_empty : Frame.numbered t ∅ = fun _ => none := by
  funext n
  rw [numbered, Finmap.lookup_empty, ite_self]

variable {x : String} (known : (t.find? x).isSome)

include known

theorem Frame.numbered_numberOf (f : Frame) :
    Frame.numbered t f (t.numberOf x) = f.lookup x := by
  rw [numbered, NameTable.text_numberOf known, if_pos (NameTable.find?_numberOf known)]

/-- A name that is bound is bound by its number, and no other number is. -/
theorem Frame.numbered_insert (f : Frame) (v : Value) :
    Frame.numbered t (f.insert x v) =
      Function.update (Frame.numbered t f) (t.numberOf x) (some v) := by
  funext n
  by_cases hn : n = t.numberOf x
  · rw [hn, Frame.numbered_numberOf known, Finmap.lookup_insert, Function.update_self]
  · rw [Function.update_of_ne hn, numbered, numbered]
    by_cases given : t.find? (t.text n) = some n
    · have other : t.text n ≠ x := by
        intro same
        rw [same, NameTable.find?_numberOf known] at given
        exact hn (Option.some.inj given).symm
      rw [if_pos given, if_pos given, Finmap.lookup_insert_of_ne _ other]
    · rw [if_neg given, if_neg given]

theorem Stack.lookup_numbered (σ : Stack) :
    Scopes.lookup (t.numberOf x) (Stack.numbered t σ) = σ.lookup x := by
  induction σ with
  | nil => rfl
  | cons f rest ih =>
      rw [numbered, List.map_cons, Scopes.lookup, Frame.numbered_numberOf known, lookup]
      cases f.lookup x with
      | some v => rfl
      | none => exact ih

theorem Stack.assign?_numbered (σ : Stack) (v : Value) :
    Scopes.assign? (t.numberOf x) v (Stack.numbered t σ) =
      (σ.assign? x v).map (Stack.numbered t) := by
  induction σ with
  | nil => rfl
  | cons f rest ih =>
      rw [numbered, List.map_cons, Scopes.assign?, Frame.numbered_numberOf known, assign?]
      by_cases bound : x ∈ f
      · rw [if_pos (Finmap.lookup_isSome.2 bound), if_pos bound, ← Frame.numbered_insert known]
        rfl
      · rw [if_neg (mt Finmap.lookup_isSome.1 bound), if_neg bound, Option.map_map]
        rw [numbered] at ih
        rw [ih, Option.map_map]
        rfl

end scopes

/-- With the numbers of a table that knows all its texts, an expression comes to the same. -/
theorem Expr.eval_numbered {e : Expr} (known : e.Known t) {env : Environment}
    (linked : env.Linked) :
    (e.numbered t.numberOf).eval t (Stack.numbered t env.stack) =
      ((e.eval env).1, Stack.numbered t (e.eval env).2.stack) := by
  induction e generalizing env with
  | literal v =>
      cases v with
      | string s =>
          have same : t.text (t.numberOf s) = s := NameTable.text_numberOf known
          simp only [numbered, Value.numbered, Numbered.Expr.eval, Numbered.Literal.value, same, eval]
      | _ => rfl
  | grouping e ih => exact ih known linked
  | unary op line e ih =>
      simp only [numbered, Numbered.Expr.eval, ih known linked, eval]
      cases e.eval env with
      | mk r env₁ => cases r <;> rfl
  | binary op line l r ihl ihr =>
      have linked₁ := (l.evaluates_eval linked).1
      simp only [numbered, Numbered.Expr.eval, ihl known.1 linked, eval]
      cases hl : l.eval env with
      | mk v env₁ =>
          rw [hl] at linked₁
          cases v with
          | error x => rfl
          | ok v =>
              simp only [ihr known.2 linked₁]
              cases r.eval env₁ with
              | mk w env₂ => cases w <;> rfl
  | logical op l r ihl ihr =>
      have linked₁ := (l.evaluates_eval linked).1
      simp only [numbered, Numbered.Expr.eval, ihl known.1 linked, eval]
      cases hl : l.eval env with
      | mk v env₁ =>
          rw [hl] at linked₁
          cases v with
          | error x => rfl
          | ok v =>
              dsimp only
              split
              · rfl
              · exact ihr known.2 linked₁
  | var name line =>
      have same : t.text (t.numberOf name) = name := NameTable.text_numberOf known
      simp only [numbered, Numbered.Expr.eval, Stack.lookup_numbered known, same, eval,
        linked.lookup]
      cases Stack.lookup name env.stack <;> rfl
  | assign name line e ih =>
      have linked₁ := (e.evaluates_eval linked).1
      have same : t.text (t.numberOf name) = name := NameTable.text_numberOf known.1
      simp only [numbered, Numbered.Expr.eval, ih known.2 linked, eval]
      cases he : e.eval env with
      | mk r env₁ =>
          rw [he] at linked₁
          cases r with
          | error x => rfl
          | ok v =>
              simp only [Stack.assign?_numbered known.1, same, ← (linked₁.assign? name v).2]
              cases env₁.assign? name v <;> rfl

namespace Machine

variable {m : Machine} (linked : m.environment.Linked)

include linked

theorem eval_numbered {e : Expr} (known : e.Known t) :
    (m.numbered t).eval t (e.numbered t.numberOf) = ((m.eval e).1, (m.eval e).2.numbered t) ∧
      (m.eval e).2.environment.Linked := by
  refine ⟨?_, (e.evaluates_eval linked).1⟩
  rw [Numbered.Machine.eval, numbered, Expr.eval_numbered known linked]
  rfl

theorem define_numbered {x : String} (known : (t.find? x).isSome) (v : Value) :
    (m.numbered t).define (t.numberOf x) v = (m.define x v).numbered t ∧
      (m.define x v).environment.Linked := by
  obtain ⟨f, σ, hs⟩ := List.exists_cons_of_ne_nil m.environment.stack_ne_nil
  obtain ⟨defined, stack⟩ := linked.define hs x v
  refine ⟨?_, defined⟩
  have stack : (m.define x v).environment.stack = f.insert x v :: σ := stack
  rw [Numbered.Machine.define, numbered, numbered, hs, stack, Stack.numbered, Stack.numbered,
    List.map_cons, List.map_cons, Frame.numbered_insert known]
  rfl

theorem push_numbered :
    (⟨(m.numbered t).scopes.push, m.output⟩ : Numbered.Machine) = m.push.numbered t ∧
      m.push.environment.Linked := by
  obtain ⟨pushed, stack⟩ := linked.push
  refine ⟨?_, pushed⟩
  have stack : m.push.environment.stack = ∅ :: m.environment.stack := stack
  rw [numbered, numbered, stack, Stack.numbered, Stack.numbered, List.map_cons,
    Frame.numbered_empty]
  rfl

theorem pop_numbered :
    (⟨(m.numbered t).scopes.pop, m.output⟩ : Numbered.Machine) = m.pop.numbered t ∧
      m.pop.environment.Linked := by
  obtain ⟨f, σ, hs⟩ := List.exists_cons_of_ne_nil m.environment.stack_ne_nil
  cases σ with
  | nil =>
      have kept : m.pop = m := congrArg (Machine.mk · m.output) (Environment.pop_of_singleton hs)
      rw [kept, numbered, hs]
      exact ⟨rfl, linked⟩
  | cons g σ =>
      obtain ⟨popped, stack⟩ := linked.pop hs (List.cons_ne_nil g σ)
      refine ⟨?_, popped⟩
      have stack : m.pop.environment.stack = g :: σ := stack
      rw [numbered, numbered, hs, stack]
      rfl

omit linked

/-- On the numbers that a table gives to names, a run does what another one does on the names. -/
def Followed (t : NameTable) (f : Machine → Ending × Machine)
    (g : Numbered.Machine → Ending × Numbered.Machine) : Prop :=
  ∀ m : Machine, m.environment.Linked →
    g (m.numbered t) = ((f m).1, (f m).2.numbered t) ∧ (f m).2.environment.Linked

variable {f : Machine → Ending × Machine} {g : Numbered.Machine → Ending × Numbered.Machine}

theorem Followed.inScope (h : Followed t f g) :
    Followed t (Machine.inScope f) (Numbered.Machine.inScope g) := by
  intro m linked
  obtain ⟨opened, linked₁⟩ := push_numbered (t := t) linked
  obtain ⟨ran, linked₂⟩ := h m.push linked₁
  obtain ⟨closed, linked₃⟩ := pop_numbered (t := t) linked₂
  refine ⟨?_, linked₃⟩
  have inside : g ⟨(m.numbered t).scopes.push, (m.numbered t).output⟩ = _ := opened ▸ ran
  simp only [Numbered.Machine.inScope, inside]
  exact Prod.ext rfl closed

theorem followed_finish : Followed t finish Numbered.Machine.finish :=
  fun _ linked => ⟨rfl, linked⟩

theorem followed_printLine (text : String) :
    Followed t (fun m => (.finished, m.printLine text)) (fun m => (.finished, m.printLine text)) :=
  fun _ linked => ⟨rfl, linked⟩

theorem followed_define {x : String} (known : (t.find? x).isSome) (v : Value) :
    Followed t (fun m => (.finished, m.define x v))
      (fun m => (.finished, m.define (t.numberOf x) v)) := by
  intro m linked
  obtain ⟨defined, linked⟩ := define_numbered linked known v
  exact ⟨Prod.ext rfl defined, linked⟩

theorem Followed.withValue {e : Expr} (known : e.Known t)
    {next : Value → Machine → Ending × Machine}
    {next' : Value → Numbered.Machine → Ending × Numbered.Machine}
    (h : ∀ v, Followed t (next v) (next' v)) :
    Followed t (Machine.withValue e next)
      (Numbered.Machine.withValue t (e.numbered t.numberOf) next') := by
  intro m linked
  obtain ⟨evaluated, linked⟩ := eval_numbered linked known
  rw [Machine.withValue, Numbered.Machine.withValue, evaluated]
  cases he : m.eval e with
  | mk r m₁ =>
      rw [he] at linked
      cases r with
      | ok v => exact h v m₁ linked
      | error x => exact ⟨rfl, linked⟩

theorem Followed.andThen (first : Followed t f g) {f' : Machine → Ending × Machine}
    {g' : Numbered.Machine → Ending × Numbered.Machine} (h : Followed t f' g') :
    Followed t (Machine.andThen f f') (Numbered.Machine.andThen g g') := by
  intro m linked
  obtain ⟨ran, linked⟩ := first m linked
  rw [Machine.andThen, Numbered.Machine.andThen, ran]
  cases hf : f m with
  | mk ending m₁ =>
      rw [hf] at linked
      cases ending with
      | finished => exact h m₁ linked
      | failed _ | cutOff => exact ⟨rfl, linked⟩

theorem Followed.choose {condition : Expr} (known : condition.Known t) (hf : Followed t f g)
    {f' : Machine → Ending × Machine} {g' : Numbered.Machine → Ending × Numbered.Machine}
    (hf' : Followed t f' g') :
    Followed t (Machine.choose condition f f')
      (Numbered.Machine.choose t (condition.numbered t.numberOf) g g') :=
  .withValue known fun v => by
    cases v.truthy with
    | true => exact hf
    | false => exact hf'

theorem Followed.repeatWhile {condition : Expr} (known : condition.Known t)
    (h : Followed t f g) (n : Nat) :
    Followed t (Machine.repeatWhile condition f n)
      (Numbered.Machine.repeatWhile t (condition.numbered t.numberOf) g n) := by
  induction n with
  | zero => exact fun _ linked => ⟨rfl, linked⟩
  | succ n ih =>
      rw [repeatWhile_succ]
      exact .choose known (h.andThen ih) followed_finish

end Machine

namespace Stmt

open Machine (Followed)

variable (limit : Nat)

mutual

/-- With the numbers of a table that knows all its texts, a statement does the same. -/
theorem followed_run (s : Stmt) (known : s.Known t) :
    Followed t (s.run limit) ((s.numbered t.numberOf).run t limit) := by
  cases s with
  | expression e => exact .withValue known fun _ => Machine.followed_finish
  | print e => exact .withValue known fun v => Machine.followed_printLine v.text
  | declare name init line =>
      cases init with
      | none => exact Machine.followed_define known.1 .nil
      | some e => exact .withValue (known.2 e rfl) fun v => Machine.followed_define known.1 v
  | block body => exact (followed_runAll body known).inScope
  | ifThen e s =>
      rw [run_ifThen]
      exact .choose known.1 (followed_run s known.2) Machine.followed_finish
  | ifElse e s s' =>
      rw [run_ifElse]
      exact .choose known.1 (followed_run s known.2.1) (followed_run s' known.2.2)
  | loop e s => exact (followed_run s known.2).repeatWhile known.1 limit

theorem followed_runAll (body : List Stmt) (known : AllKnown t body) :
    Followed t (runAll limit body)
      (Numbered.Stmt.runAll t limit (allNumbered t.numberOf body)) := by
  cases body with
  | nil => exact Machine.followed_finish
  | cons s rest => exact (followed_run s known.1).andThen (followed_runAll rest known.2)

end

end Stmt

end Lox
