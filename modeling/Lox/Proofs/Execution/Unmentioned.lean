import Lox.Proofs.Execution.Frame
import Lox.Proofs.Execution.Together
import Lox.Proofs.Scope.Agreement

/-!
Names that a program does not mention cannot influence it. On two environments that bind the same to
the names of a program it prints the same and comes to the same end, or to none; afterwards the two
still bind the same to these names, and each binds to all others what it did before.
-/

namespace Lox

theorem Expr.targets_subset (e : Expr) : e.targets ⊆ e.mentioned := by
  induction e with
  | literal | var => exact Finset.empty_subset _
  | grouping _ ih | unary _ _ _ ih => exact ih
  | binary _ _ _ _ ihl ihr | logical _ _ _ ihl ihr => exact Finset.union_subset_union ihl ihr
  | assign _ _ _ ih => exact Finset.insert_subset_insert _ ih

namespace Stmt

mutual

def mentioned : Stmt → Finset String
  | .expression e | .print e => e.mentioned
  | .declare name none _ => {name}
  | .declare name (some e) _ => insert name e.mentioned
  | .block body => allMentioned body
  | .ifThen e s | .loop e s => e.mentioned ∪ s.mentioned
  | .ifElse e s s' => e.mentioned ∪ (s.mentioned ∪ s'.mentioned)

def allMentioned : List Stmt → Finset String
  | [] => ∅
  | s :: rest => s.mentioned ∪ allMentioned rest

end

theorem declared_subset (s : Stmt) : s.declared ⊆ s.mentioned := by
  cases s with
  | declare name init =>
      cases init with
      | none => exact Finset.Subset.refl _
      | some e => exact Finset.singleton_subset_iff.2 (Finset.mem_insert_self _ _)
  | _ => exact Finset.empty_subset _

theorem allDeclared_subset (body : List Stmt) : allDeclared body ⊆ allMentioned body := by
  induction body with
  | nil => exact Finset.Subset.refl _
  | cons s rest ih => exact Finset.union_subset_union (declared_subset s) ih

mutual

theorem targets_subset (s : Stmt) : s.targets ⊆ s.mentioned := by
  cases s with
  | expression e | print e => exact e.targets_subset
  | declare name init =>
      cases init with
      | none => exact Finset.empty_subset _
      | some e => exact e.targets_subset.trans (Finset.subset_insert _ _)
  | block body => exact allTargets_subset body
  | ifThen e s | loop e s => exact Finset.union_subset_union e.targets_subset (targets_subset s)
  | ifElse e s s' =>
      exact Finset.union_subset_union e.targets_subset
        (Finset.union_subset_union (targets_subset s) (targets_subset s'))

theorem allTargets_subset (body : List Stmt) : allTargets body ⊆ allMentioned body := by
  cases body with
  | nil => exact Finset.Subset.refl _
  | cons s rest => exact Finset.union_subset_union (targets_subset s) (allTargets_subset rest)

end

end Stmt

namespace Machine

/-- Two machines that have printed the same and bind the same values to some names. -/
structure Alike (names : Set String) (m m' : Machine) : Prop where
  linked : m.environment.Linked
  linked' : m'.environment.Linked
  output : m'.output = m.output
  stack : Stack.AgreeOn names m.environment.stack m'.environment.stack

variable {N : Set String} {m m' : Machine}

theorem Alike.printLine (h : Alike N m m') (text : String) :
    Alike N (m.printLine text) (m'.printLine text) :=
  ⟨h.linked, h.linked', congrArg (Output.printLine · text) h.output, h.stack⟩

/-- A binding in the innermost scope, of whatever name. -/
theorem Alike.define (h : Alike N m m') (name : String) (v : Value) :
    Alike N (m.define name v) (m'.define name v) := by
  obtain ⟨f, σ, hs⟩ := List.exists_cons_of_ne_nil m.environment.stack_ne_nil
  obtain ⟨g, τ, hs'⟩ := List.exists_cons_of_ne_nil m'.environment.stack_ne_nil
  obtain ⟨linked, stack⟩ := h.linked.define hs name v
  obtain ⟨linked', stack'⟩ := h.linked'.define hs' name v
  have same : Stack.AgreeOn N (f :: σ) (g :: τ) := hs ▸ hs' ▸ h.stack
  have defined := same.insert name v
  rw [← stack, ← stack'] at defined
  exact ⟨linked, linked', h.output, defined⟩

theorem Alike.push (h : Alike N m m') : Alike N m.push m'.push := by
  obtain ⟨linked, stack⟩ := h.linked.push
  obtain ⟨linked', stack'⟩ := h.linked'.push
  have opened : Stack.AgreeOn N (∅ :: m.environment.stack) (∅ :: m'.environment.stack) :=
    .cons (fun _ _ => rfl) h.stack
  rw [← stack, ← stack'] at opened
  exact ⟨linked, linked', h.output, opened⟩

theorem Alike.pop (h : Alike N m m') : Alike N m.pop m'.pop := by
  obtain ⟨f, σ, hs⟩ := List.exists_cons_of_ne_nil m.environment.stack_ne_nil
  obtain ⟨g, τ, hs'⟩ := List.exists_cons_of_ne_nil m'.environment.stack_ne_nil
  have same : Stack.AgreeOn N (f :: σ) (g :: τ) := hs ▸ hs' ▸ h.stack
  obtain ⟨-, rest⟩ := List.forall₂_cons.1 same
  by_cases outermost : σ = []
  · -- Only the global scope is open, and stays so.
    obtain rfl := outermost
    obtain rfl := List.forall₂_nil_left_iff.1 rest
    have kept : m.pop = m := congrArg (Machine.mk · m.output) (Environment.pop_of_singleton hs)
    have kept' : m'.pop = m' := congrArg (Machine.mk · m'.output) (Environment.pop_of_singleton hs')
    rw [kept, kept']
    exact h
  · have inner : τ ≠ [] := by
      rintro rfl
      exact outermost (List.forall₂_nil_right_iff.1 rest)
    obtain ⟨linked, stack⟩ := h.linked.pop hs outermost
    obtain ⟨linked', stack'⟩ := h.linked'.pop hs' inner
    rw [← stack, ← stack'] at rest
    exact ⟨linked, linked', h.output, rest⟩

theorem together_eval {e : Expr} (sub : ∀ x ∈ e.mentioned, x ∈ N) :
    Together (Alike N) (eval e) (eval e) := by
  intro m m' alike
  have evaluates {r : Except RuntimeError Value} {m₁ : Machine} (he : m.eval e = (r, m₁))
      (linked : m₁.environment.Linked) (out : m₁.output = m.output)
      (derived : e.Evaluates m.environment.stack r m₁.environment.stack) :
      (m'.eval e).1 = (m.eval e).1 ∧ Alike N (m.eval e).2 (m'.eval e).2 := by
    obtain ⟨τ, derived', same⟩ := derived.agreeOn sub alike.stack
    obtain ⟨env, he', linked', rfl⟩ := derived'.eval_eq alike.linked' rfl
    have he' : m'.eval e = (r, ⟨env, m'.output⟩) := by rw [eval, he']
    rw [he, he']
    exact ⟨rfl, linked, linked', alike.output.trans out.symm, same⟩
  obtain ⟨v, m₁, he, linked, out, derived⟩ | ⟨x, m₁, he, linked, out, derived⟩ :=
    eval_cases e alike.linked
  · exact evaluates he linked out derived
  · exact evaluates he linked out derived

end Machine

namespace Stmt

open Machine (Together Alike)

mutual

/-- A statement does the same to two machines that bind the same to its names. -/
theorem together_run (limit : Nat) {N : Set String} (s : Stmt) (sub : ∀ x ∈ s.mentioned, x ∈ N) :
    Together (Alike N) (s.run limit) (s.run limit) := by
  cases s with
  | expression e =>
      exact (Machine.together_eval sub).withValue fun _ => Machine.together_finish
  | print e =>
      exact (Machine.together_eval sub).withValue fun v =>
        Machine.together_step _ fun m m' alike => alike.printLine v.text
  | declare name init =>
      cases init with
      | none => exact Machine.together_step _ fun m m' alike => alike.define name .nil
      | some e =>
          have value := (Finset.forall_mem_insert _ _ _).1 sub
          exact (Machine.together_eval value.2).withValue fun v =>
            Machine.together_step _ fun m m' alike => alike.define name v
  | block body =>
      exact (together_runAll limit body sub).inScope fun m m' alike =>
        ⟨alike.push, fun _ _ alike => alike.pop⟩
  | ifThen e s =>
      obtain ⟨condition, branch⟩ := Finset.forall_mem_union.1 sub
      rw [run_ifThen]
      exact (Machine.together_eval condition).choose (together_run limit s branch)
        Machine.together_finish
  | ifElse e s s' =>
      obtain ⟨condition, branches⟩ := Finset.forall_mem_union.1 sub
      obtain ⟨branch, branch'⟩ := Finset.forall_mem_union.1 branches
      rw [run_ifElse]
      exact (Machine.together_eval condition).choose (together_run limit s branch)
        (together_run limit s' branch')
  | loop e s =>
      obtain ⟨condition, body⟩ := Finset.forall_mem_union.1 sub
      exact (Machine.together_eval condition).repeatWhile (together_run limit s body) limit

theorem together_runAll (limit : Nat) {N : Set String} (body : List Stmt)
    (sub : ∀ x ∈ allMentioned body, x ∈ N) :
    Together (Alike N) (runAll limit body) (runAll limit body) := by
  cases body with
  | nil => exact Machine.together_finish
  | cons s rest =>
      obtain ⟨first, more⟩ := Finset.forall_mem_union.1 sub
      exact (together_run limit s first).andThen (together_runAll limit rest more)

end

/-- Statements change nothing that is bound to names which they do not mention. -/
theorem agreeOn_runAll (limit : Nat) {body : List Stmt} (placed : AllPlaced body) {m : Machine}
    (h : m.environment.Linked) :
    Stack.AgreeOn {x | x ∉ allMentioned body} m.environment.stack
      (runAll limit body m).2.environment.stack := by
  refine (grows_runAll limit body placed h).stack.agreeOn fun x absent found => absent ?_
  exact Finset.union_subset (allTargets_subset body) (allDeclared_subset body) found

end Stmt

/-- On two environments with as many scopes that bind, scope by scope, the same to the names of a
program, and anything to others, the program prints the same and ends in the same way under every
limit, so that it goes on for ever on both or on neither. The environments that it leaves agree,
scope by scope, on its names, and each is unchanged on all others. -/
theorem Program.runAll_ignores_unmentioned (tokens : List Token) {e e' : Environment}
    (linked : e.Linked) (linked' : e'.Linked)
    (same : Stack.AgreeOn {x | x ∈ Stmt.allMentioned (ofTokens tokens).statements} e.stack e'.stack)
    (out : Output) :
    let body := (ofTokens tokens).statements
    (∀ limit,
      let run := Stmt.runAll limit body ⟨e, out⟩
      let run' := Stmt.runAll limit body ⟨e', out⟩
      run'.1 = run.1 ∧ run'.2.output = run.2.output ∧
        Stack.AgreeOn {x | x ∈ Stmt.allMentioned body} run.2.environment.stack
          run'.2.environment.stack ∧
        Stack.AgreeOn {x | x ∉ Stmt.allMentioned body} e.stack run.2.environment.stack ∧
        Stack.AgreeOn {x | x ∉ Stmt.allMentioned body} e'.stack run'.2.environment.stack) ∧
      ((∀ limit, (Stmt.runAll limit body ⟨e, out⟩).1 = .cutOff) ↔
        ∀ limit, (Stmt.runAll limit body ⟨e', out⟩).1 = .cutOff) := by
  intro body
  have placed : Stmt.AllPlaced body := placed_ofTokens tokens
  have mentioned : ∀ x ∈ Stmt.allMentioned body, x ∈ {x | x ∈ Stmt.allMentioned body} :=
    fun _ hx => hx
  have ran (limit : Nat) := Stmt.together_runAll limit body mentioned ⟨e, out⟩ ⟨e', out⟩
    ⟨linked, linked', rfl, same⟩
  refine ⟨fun limit => ?_, ?_⟩
  · obtain ⟨ending, alike⟩ := ran limit
    exact ⟨ending, alike.output, alike.stack,
      Stmt.agreeOn_runAll limit placed (m := ⟨e, out⟩) linked,
      Stmt.agreeOn_runAll limit placed (m := ⟨e', out⟩) linked'⟩
  · exact forall_congr' fun limit => by rw [(ran limit).1]

theorem Program.runAll_ignores_unmentioned_loop :
    let tokens := (Lexical.read "while (y) { var v = x; print v; x = z = y = false; } w;").tokens
    let e := ((Environment.empty.define "x" (.string "a")).define "u" (.bool true)).push.define
      "y" (.bool true)
    let e' := ((Environment.empty.define "t" .nil).define "x" (.string "a")).push.define
      "y" (.bool true)
    let body := (ofTokens tokens).statements
    let run := Stmt.runAll 2 body ⟨e, .empty⟩
    let run' := Stmt.runAll 2 body ⟨e', .empty⟩
    e.Linked ∧ e'.Linked ∧ e.lookup "u" ≠ e'.lookup "u" ∧
      Stack.AgreeOn {x | x ∈ Stmt.allMentioned body} e.stack e'.stack ∧
      run.1 = .failed ⟨.undefinedVariable "z", 1⟩ ∧ run'.1 = run.1 ∧
      run.2.output = ⟨"a\n"⟩ ∧ run'.2.output = run.2.output ∧
      Stack.AgreeOn {x | x ∈ Stmt.allMentioned body} run.2.environment.stack
        run'.2.environment.stack ∧
      Stack.AgreeOn {x | x ∉ Stmt.allMentioned body} e.stack run.2.environment.stack ∧
      Stack.AgreeOn {x | x ∉ Stmt.allMentioned body} e'.stack run'.2.environment.stack := by
  intro tokens e e' body run run'
  have linked : e.Linked :=
    (((Environment.linked_empty.define rfl "x" (.string "a")).1.define rfl "u" _).1.push.1.define
      rfl "y" _).1
  have linked' : e'.Linked :=
    (((Environment.linked_empty.define rfl "t" .nil).1.define rfl "x" _).1.push.1.define
      rfl "y" _).1
  have same : Stack.AgreeOn {x | x ∈ Stmt.allMentioned body} e.stack e'.stack := by
    have innermost : ∀ x ∈ Stmt.allMentioned body, (e'.store.frame e'.innermost).lookup x =
        (e.store.frame e.innermost).lookup x := by decide +kernel
    have outermost : ∀ x ∈ Stmt.allMentioned body,
        (e'.store.frame Environment.globalScope).lookup x =
          (e.store.frame Environment.globalScope).lookup x := by decide +kernel
    -- The frames are to be compared without reading the program once more.
    clear_value body
    exact .cons innermost (.cons outermost .nil)
  have apart : e.lookup "u" ≠ e'.lookup "u" := by decide +kernel
  have shown : (run.1, run.2.output) = (.failed ⟨.undefinedVariable "z", 1⟩, ⟨"a\n"⟩) := by
    decide +kernel
  obtain ⟨failed, printed⟩ := Prod.mk.inj shown
  -- From here on the program is not to be run.
  clear_value tokens e e'
  obtain ⟨ending, output, after, kept, kept'⟩ :=
    (runAll_ignores_unmentioned tokens linked linked' same .empty).1 2
  exact ⟨linked, linked', apart, same, failed, ending, printed, output, after, kept, kept'⟩

end Lox
