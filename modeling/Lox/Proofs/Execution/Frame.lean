import Lox.Lexical.Reading
import Lox.Proofs.Execution.Adequacy
import Lox.Proofs.Phrase.Placement
import Lox.Proofs.Scope.Growth

/-!
What a run leaves alone. An expression changes no scope's names, and only the values of names that
it assigns to. Statements can add names to the innermost scope alone, those that they declare, and a
run that finishes adds all of them. What happens in a scope of its own adds no name to any scope
that was there before. Output is only ever extended.
-/

namespace Lox

def Expr.targets : Expr → Finset String
  | literal _ | var _ _ => ∅
  | grouping e | unary _ _ e => e.targets
  | binary _ _ l r | logical _ l r => l.targets ∪ r.targets
  | assign name _ e => insert name e.targets

namespace Stmt

mutual

def targets : Stmt → Finset String
  | .expression e | .print e => e.targets
  | .declare _ none _ => ∅
  | .declare _ (some e) _ => e.targets
  | .block body => allTargets body
  | .ifThen e s | .loop e s => e.targets ∪ s.targets
  | .ifElse e s s' => e.targets ∪ (s.targets ∪ s'.targets)

def allTargets : List Stmt → Finset String
  | [] => ∅
  | s :: rest => s.targets ∪ allTargets rest

end

def declared : Stmt → Finset String
  | .declare name _ _ => {name}
  | _ => ∅

def allDeclared : List Stmt → Finset String
  | [] => ∅
  | s :: rest => s.declared ∪ allDeclared rest

theorem declared_eq_empty {s : Stmt} (h : s.isDeclaration = false) : s.declared = ∅ := by
  cases s with
  | declare => cases h
  | _ => rfl

theorem mem_allDeclared {body : List Stmt} {x : String} :
    x ∈ allDeclared body ↔ ∃ init line, .declare x init line ∈ body := by
  induction body with
  | nil => simp [allDeclared]
  | cons s rest ih =>
      rw [allDeclared, Finset.mem_union, ih]
      cases s <;> simp [declared, exists_or]

end Stmt

/-- An expression changes no frame's names, and only the values of its targets. -/
theorem Expr.Evaluates.keeps {e : Expr} {σ σ' : Stack} {r : Except RuntimeError Value}
    (h : e.Evaluates σ r σ') : Stack.Keeps e.targets σ σ' := by
  induction h with
  | literal | var | varUnbound => exact .refl _ _
  | grouping _ ih | unary _ _ ih | unaryFails _ ih => exact ih
  | decided _ _ ih | binaryLeftFails _ ih | logicalFails _ ih =>
      exact ih.mono Finset.subset_union_left
  | binary _ _ _ ihl ihr | binaryRightFails _ _ ihl ihr | undecided _ _ _ ihl ihr =>
      exact (ihl.mono Finset.subset_union_left).trans (ihr.mono Finset.subset_union_right)
  | assign _ ha ih =>
      exact (ih.mono (Finset.subset_insert _ _)).trans
        ((Stack.keeps_assign? ha).mono (by simp))
  | assignUnbound _ _ ih | assignFails _ ih => exact ih.mono (Finset.subset_insert _ _)

/-- The names that a run is sure to have bound, of those that it can bind. -/
def Ending.gained (possible : Finset String) : Ending → Finset String
  | finished => possible
  | failed _ | cutOff => ∅

theorem Ending.gained_subset (possible : Finset String) (ending : Ending) :
    ending.gained possible ⊆ possible := by
  cases ending with
  | finished => exact Finset.Subset.refl _
  | failed _ | cutOff => exact Finset.empty_subset _

namespace Machine

structure Grows (least most assigned : Finset String) (m m' : Machine) : Prop where
  linked : m'.environment.Linked
  printed : ∃ o, m'.output = m.output.print o
  stack : Stack.Grows least most assigned m.environment.stack m'.environment.stack

namespace Grows

variable {L L' M M' A A' : Finset String} {m m₁ m₂ : Machine}

theorem atLeast (h : Grows L M A m m₁) (sub : L' ⊆ L) : Grows L' M A m m₁ :=
  ⟨h.linked, h.printed, h.stack.mono sub (Finset.Subset.refl _) (Finset.Subset.refl _)⟩

theorem atMost (h : Grows L M A m m₁) (sub : M ⊆ M') : Grows L M' A m m₁ :=
  ⟨h.linked, h.printed, h.stack.mono (Finset.Subset.refl _) sub (Finset.Subset.refl _)⟩

theorem assigning (h : Grows L M A m m₁) (sub : A ⊆ A') : Grows L M A' m m₁ :=
  ⟨h.linked, h.printed, h.stack.mono (Finset.Subset.refl _) (Finset.Subset.refl _) sub⟩

theorem trans (h : Grows L M A m m₁) (h' : Grows L' M' A m₁ m₂) :
    Grows (L ∪ L') (M ∪ M') A m m₂ := by
  obtain ⟨o, printed⟩ := h.printed
  obtain ⟨o', printed'⟩ := h'.printed
  exact ⟨h'.linked, ⟨o ++ o', by rw [printed', printed, Output.print_print]⟩,
    h.stack.trans h'.stack⟩

theorem after_silent (h : Grows ∅ ∅ A m m₁) (h' : Grows L M A m₁ m₂) : Grows L M A m m₂ := by
  have whole := h.trans h'
  rwa [Finset.empty_union, Finset.empty_union] at whole

end Grows

theorem grows_refl {m : Machine} (h : m.environment.Linked) (A : Finset String) :
    Grows ∅ ∅ A m m :=
  ⟨h, ⟨"", (Output.print_empty _).symm⟩,
    (Stack.Keeps.refl A _).grows m.environment.stack_ne_nil⟩

/-- Evaluation prints nothing and leaves every scope with its names. -/
theorem eval_keeps (e : Expr) {m : Machine} (h : m.environment.Linked) :
    (m.eval e).2.environment.Linked ∧ (m.eval e).2.output = m.output ∧
      Stack.Keeps e.targets m.environment.stack (m.eval e).2.environment.stack := by
  obtain ⟨v, m', he, linked, out, derived⟩ | ⟨x, m', he, linked, out, derived⟩ := eval_cases e h
  · rw [he]
    exact ⟨linked, out, derived.keeps⟩
  · rw [he]
    exact ⟨linked, out, derived.keeps⟩

theorem grows_eval {e : Expr} {m m' : Machine} {r : Except RuntimeError Value}
    (h : m.environment.Linked) (he : m.eval e = (r, m')) : Grows ∅ ∅ e.targets m m' := by
  obtain ⟨linked, out, keeps⟩ := eval_keeps e h
  rw [he] at linked out keeps
  exact ⟨linked, ⟨"", by rw [out, Output.print_empty]⟩, keeps.grows m.environment.stack_ne_nil⟩

theorem grows_define {m : Machine} (h : m.environment.Linked) (name : String) (v : Value) :
    Grows {name} {name} ∅ m (m.define name v) := by
  obtain ⟨f, σ, hs⟩ := List.exists_cons_of_ne_nil m.environment.stack_ne_nil
  obtain ⟨linked, hs'⟩ := h.define hs name v
  refine ⟨linked, ⟨"", (Output.print_empty _).symm⟩, ?_⟩
  rw [hs]
  exact hs' ▸ Stack.grows_insert f σ name v

theorem grows_printLine {m : Machine} (h : m.environment.Linked) (text : String) :
    Grows ∅ ∅ ∅ m (m.printLine text) :=
  ⟨h, ⟨text ++ "\n", Output.print_print _ _ _⟩,
    (Stack.Keeps.refl ∅ _).grows m.environment.stack_ne_nil⟩

/-- What runs in a scope of its own leaves the scopes around it with their names. -/
theorem keeps_inScope {α : Type} {run : Machine → α × Machine} {L M A : Finset String} {m : Machine}
    (h : m.environment.Linked) (grows : Grows L M A m.push (run m.push).2) :
    (m.inScope run).2.environment.Linked ∧ (∃ o, (m.inScope run).2.output = m.output.print o) ∧
      Stack.Keeps A m.environment.stack (m.inScope run).2.environment.stack := by
  obtain ⟨-, stack⟩ := h.push
  have inner : Stack.Grows L M A (∅ :: m.environment.stack) (run m.push).2.environment.stack :=
    stack ▸ grows.stack
  obtain ⟨f, σ, hs, keeps⟩ := inner.outer
  have hσ : σ ≠ [] := by
    rintro rfl
    exact m.environment.stack_ne_nil (List.forall₂_nil_right_iff.1 keeps)
  obtain ⟨linked, hs'⟩ := grows.linked.pop hs hσ
  exact ⟨linked, grows.printed, hs' ▸ keeps⟩

theorem grows_inScope {α : Type} {run : Machine → α × Machine} {L M A : Finset String}
    {m : Machine} (h : m.environment.Linked) (grows : Grows L M A m.push (run m.push).2) :
    Grows ∅ ∅ A m (m.inScope run).2 := by
  obtain ⟨linked, printed, keeps⟩ := keeps_inScope h grows
  exact ⟨linked, printed, keeps.grows m.environment.stack_ne_nil⟩

/-- If each turn of a loop leaves the names of all scopes, so does the loop. -/
theorem grows_repeatWhile {condition : Expr} {body : Machine → Ending × Machine}
    {A : Finset String} (sub : condition.targets ⊆ A)
    (turn : ∀ m : Machine, m.environment.Linked → Grows ∅ ∅ A m (body m).2) (n : Nat)
    {m : Machine} (h : m.environment.Linked) :
    Grows ∅ ∅ A m (repeatWhile condition body n m).2 := by
  induction n generalizing m with
  | zero => exact grows_refl h A
  | succ n ih =>
      rw [repeatWhile]
      cases he : m.eval condition with
      | mk r m₁ =>
          have tested := (grows_eval h he).assigning sub
          cases r with
          | error x => exact tested
          | ok v =>
              dsimp only
              split
              · have turned := tested.after_silent (turn m₁ tested.linked)
                cases hb : body m₁ with
                | mk ending m₂ =>
                    rw [hb] at turned
                    cases ending with
                    | finished => exact turned.after_silent (ih turned.linked)
                    | failed _ | cutOff => exact turned
              · exact tested

end Machine

namespace Stmt

/-- A branch is no declaration, so that the condition and the branch together add nothing. -/
theorem grows_branch {s : Stmt} (hs : s.isDeclaration = false) {A : Finset String}
    {m m₁ m₂ : Machine} {ending : Ending} (sub : s.targets ⊆ A) (tested : Machine.Grows ∅ ∅ A m m₁)
    (grows : Machine.Grows (ending.gained s.declared) s.declared s.targets m₁ m₂) :
    Machine.Grows (ending.gained ∅) ∅ A m m₂ := by
  rw [declared_eq_empty hs] at grows
  exact tested.after_silent (grows.assigning sub)

mutual

/-- A run of a statement adds to the innermost scope at most the name that it declares. -/
theorem grows_run (limit : Nat) (s : Stmt) (placed : s.Placed) {m : Machine}
    (h : m.environment.Linked) :
    Machine.Grows ((s.run limit m).1.gained s.declared) s.declared s.targets m
      (s.run limit m).2 := by
  -- Along the recursion of the run. The branches and bodies are no declarations, so that they add
  -- nothing, and a block closes the scope to which its statements add.
  cases s with
  | expression e =>
      rw [Stmt.run]
      cases he : m.eval e with
      | mk r m₁ =>
          cases r with
          | ok v => exact Machine.grows_eval h he
          | error x => exact Machine.grows_eval h he
  | print e =>
      rw [Stmt.run]
      cases he : m.eval e with
      | mk r m₁ =>
          have evaluated := Machine.grows_eval h he
          cases r with
          | ok v =>
              have printed := Machine.grows_printLine evaluated.linked v.text
              exact evaluated.after_silent (printed.assigning (Finset.empty_subset _))
          | error x => exact evaluated
  | declare name init line =>
      cases init with
      | none => exact Machine.grows_define h name .nil
      | some e =>
          rw [Stmt.run]
          cases he : m.eval e with
          | mk r m₁ =>
              have evaluated := Machine.grows_eval h he
              cases r with
              | ok v =>
                  have defined := Machine.grows_define evaluated.linked name v
                  exact evaluated.after_silent (defined.assigning (Finset.empty_subset _))
              | error x =>
                  exact evaluated.atMost (Finset.empty_subset _)
  | block body =>
      have inside := grows_runAll limit body placed (m := m.push) h.push.1
      exact (Machine.grows_inScope h inside).atLeast (Ending.gained_subset ∅ _)
  | ifThen e s =>
      rw [Stmt.run]
      cases he : m.eval e with
      | mk r m₁ =>
          have tested : Machine.Grows ∅ ∅ (e.targets ∪ s.targets) m m₁ :=
            (Machine.grows_eval h he).assigning Finset.subset_union_left
          cases r with
          | error x => exact tested
          | ok v =>
              dsimp only
              split
              · exact grows_branch placed.1 Finset.subset_union_right tested
                  (grows_run limit s placed.2 tested.linked)
              · exact tested
  | ifElse e s s' =>
      rw [Stmt.run]
      cases he : m.eval e with
      | mk r m₁ =>
          have tested : Machine.Grows ∅ ∅ (e.targets ∪ (s.targets ∪ s'.targets)) m m₁ :=
            (Machine.grows_eval h he).assigning Finset.subset_union_left
          cases r with
          | error x => exact tested
          | ok v =>
              dsimp only
              split
              · exact grows_branch placed.1.1
                  (Finset.subset_union_left.trans Finset.subset_union_right) tested
                  (grows_run limit s placed.1.2 tested.linked)
              · exact grows_branch placed.2.1
                  (Finset.subset_union_right.trans Finset.subset_union_right) tested
                  (grows_run limit s' placed.2.2 tested.linked)
  | loop e s =>
      have turn (m : Machine) (h : m.environment.Linked) :
          Machine.Grows ∅ ∅ (e.targets ∪ s.targets) m (s.run limit m).2 := by
        have body := grows_run limit s placed.2 h
        rw [declared_eq_empty placed.1] at body
        exact (body.atLeast (Finset.empty_subset _)).assigning Finset.subset_union_right
      have turns := Machine.grows_repeatWhile Finset.subset_union_left turn limit h
      exact turns.atLeast (Ending.gained_subset ∅ _)

/-- A run of statements adds to the innermost scope at most the names that they declare, and all of
them if it finishes. -/
theorem grows_runAll (limit : Nat) (body : List Stmt) (placed : AllPlaced body) {m : Machine}
    (h : m.environment.Linked) :
    Machine.Grows ((Stmt.runAll limit body m).1.gained (allDeclared body)) (allDeclared body)
      (allTargets body) m (Stmt.runAll limit body m).2 := by
  cases body with
  | nil => exact Machine.grows_refl h ∅
  | cons s rest =>
      have first : Machine.Grows ((s.run limit m).1.gained s.declared) s.declared
          (s.targets ∪ allTargets rest) m (s.run limit m).2 :=
        (grows_run limit s placed.1 h).assigning Finset.subset_union_left
      rw [Stmt.runAll]
      cases hb : s.run limit m with
      | mk ending m₁ =>
          rw [hb] at first
          cases ending with
          | finished =>
              have more := grows_runAll limit rest placed.2 first.linked
              refine (first.trans (more.assigning Finset.subset_union_right)).atLeast ?_
              cases (Stmt.runAll limit rest m₁).1 with
              | finished => exact Finset.Subset.refl _
              | failed _ | cutOff => exact Finset.empty_subset _
          | failed _ | cutOff =>
              exact (first.atLeast (Finset.empty_subset _)).atMost Finset.subset_union_left

end

end Stmt

namespace Machine

/-- What can be done with a machine: evaluations and runs, one after the other, where each may
depend on what the earlier ones came to, and with any part of them in a scope of its own. -/
inductive Activity : {α : Type} → (Machine → α × Machine) → Prop
  | idle {α : Type} (a : α) : Activity fun m => (a, m)
  | next {α β : Type} {f : Machine → α × Machine} {g : α → Machine → β × Machine}
      (first : Activity f) (more : ∀ a, Activity (g a)) : Activity fun m => g (f m).1 (f m).2
  | eval (e : Expr) : Activity (Machine.eval e)
  | execute (limit : Nat) {s : Stmt} (placed : s.Placed) : Activity (s.run limit)
  | interpret (limit : Nat) {body : List Stmt} (placed : Stmt.AllPlaced body) :
      Activity (Stmt.runAll limit body)
  | inScope {α : Type} {f : Machine → α × Machine} (inside : Activity f) :
      Activity (Machine.inScope f)

/-- Whatever is done with a machine, the names of all scopes but the innermost stay, and that one
loses none. -/
theorem Activity.grows {α : Type} {f : Machine → α × Machine} (h : Activity f) {m : Machine}
    (linked : m.environment.Linked) : ∃ M A, Grows ∅ M A m (f m).2 := by
  induction h generalizing m with
  | idle a => exact ⟨∅, ∅, grows_refl linked ∅⟩
  | @next α β f g _ _ ih ih' =>
      obtain ⟨M, A, first⟩ := ih linked
      obtain ⟨M', A', more⟩ := ih' (f m).1 first.linked
      have whole : Grows (∅ ∪ ∅) (M ∪ M') (A ∪ A') m (g (f m).1 (f m).2).2 :=
        (first.assigning Finset.subset_union_left).trans (more.assigning Finset.subset_union_right)
      exact ⟨M ∪ M', A ∪ A', whole.atLeast (Finset.empty_subset _)⟩
  | eval e => exact ⟨∅, e.targets, grows_eval linked rfl⟩
  | execute limit placed =>
      exact ⟨_, _, (Stmt.grows_run limit _ placed linked).atLeast (Finset.empty_subset _)⟩
  | interpret limit placed =>
      exact ⟨_, _, (Stmt.grows_runAll limit _ placed linked).atLeast (Finset.empty_subset _)⟩
  | inScope _ ih =>
      obtain ⟨M, A, inside⟩ := ih (m := m.push) linked.push.1
      exact ⟨∅, A, grows_inScope linked inside⟩

end Machine

/-- What a run of a program leaves alone: the number of scopes, the names of all scopes but the
innermost, which gains the declared names, all of them if the run finishes, and the values of names
that the program neither declares nor assigns to. In a scope of its own it leaves every scope that
was there with its names, as does everything else that is done there. -/
theorem Program.runAll_frame (tokens : List Token) (limit : Nat) (m : Machine)
    (linked : m.environment.Linked) :
    let body := (ofTokens tokens).statements
    (∀ ending m', Stmt.runAll limit body m = (ending, m') →
      m'.environment.depth = m.environment.depth ∧ (∃ o, m'.output = m.output.print o) ∧
      ∃ f σ f' σ', m.environment.stack = f :: σ ∧ m'.environment.stack = f' :: σ' ∧
        σ'.map Finmap.keys = σ.map Finmap.keys ∧
        f.keys ⊆ f'.keys ∧ f'.keys ⊆ f.keys ∪ Stmt.allDeclared body ∧
        (ending = .finished → f'.keys = f.keys ∪ Stmt.allDeclared body) ∧
        (∀ x ∉ Stmt.allTargets body ∪ Stmt.allDeclared body, f'.lookup x = f.lookup x) ∧
        ∀ x ∉ Stmt.allTargets body,
          σ'.map (Finmap.lookup x) = σ.map (Finmap.lookup x)) ∧
    (∀ ending m', m.runBlock limit body = (ending, m') →
      m'.environment.stack.map Finmap.keys = m.environment.stack.map Finmap.keys ∧
      ∀ x ∉ Stmt.allTargets body,
        m'.environment.stack.map (Finmap.lookup x) = m.environment.stack.map (Finmap.lookup x)) ∧
    (∀ (α : Type) (f : Machine → α × Machine), Machine.Activity f → ∀ a m',
      m.inScope f = (a, m') → m'.environment.depth = m.environment.depth ∧
        (∃ o, m'.output = m.output.print o) ∧
        m'.environment.stack.map Finmap.keys = m.environment.stack.map Finmap.keys) ∧
    ∀ e r m', m.eval e = (r, m') → m'.environment.depth = m.environment.depth ∧
      m'.output = m.output ∧
      m'.environment.stack.map Finmap.keys = m.environment.stack.map Finmap.keys := by
  intro body
  have placed : Stmt.AllPlaced body := placed_ofTokens tokens
  refine ⟨fun ending m' hr => ?_, fun ending m' hr => ?_, fun α f activity a m' hr => ?_,
    fun e r m' he => ?_⟩
  · have grows := Stmt.grows_runAll limit body placed linked
    rw [hr] at grows
    obtain ⟨linked', printed, stack⟩ := grows
    generalize hs : m.environment.stack = σ₀, hs' : m'.environment.stack = σ₁ at stack
    obtain ⟨lower, upper, values, outer⟩ := stack
    refine ⟨?_, printed, _, _, _, _, rfl, rfl, outer.names,
      Finset.union_subset_left lower, upper, fun done => ?_, values, fun x hx => outer.values hx⟩
    · rw [← Environment.length_stack, ← Environment.length_stack, hs, hs', List.length_cons,
        List.length_cons, outer.length_eq]
    · subst done
      exact Finset.Subset.antisymm upper lower
  · have keeps := (Machine.keeps_inScope linked
      (Stmt.grows_runAll limit body placed (m := m.push) linked.push.1)).2.2
    have block : m.inScope (Stmt.runAll limit body) = (ending, m') := hr
    rw [block] at keeps
    exact ⟨keeps.names, fun x hx => keeps.values hx⟩
  · obtain ⟨M, A, inside⟩ := activity.grows (m := m.push) linked.push.1
    obtain ⟨-, printed, keeps⟩ := Machine.keeps_inScope linked inside
    rw [hr] at printed keeps
    exact ⟨Environment.depth_eq_of_names keeps.names, printed, keeps.names⟩
  · obtain ⟨-, out, keeps⟩ := Machine.eval_keeps e linked
    rw [he] at out keeps
    exact ⟨Environment.depth_eq_of_names keeps.names, out, keeps.names⟩

theorem Program.runAll_frame_nested :
    let tokens := (Lexical.read "var y = x; \x7b var x = y; x = null; \x7d y = z; var w;").tokens
    let run := Stmt.runAll 1 (ofTokens tokens).statements
    let m : Machine := ⟨(Environment.empty.define "x" (.string "a")).push, .empty⟩
    m.environment.Linked ∧ (run m).1 = .failed ⟨.undefinedVariable "z", 1⟩ ∧
      Machine.Activity (Machine.inScope run) ∧ (run m).2.environment.depth = m.environment.depth ∧
      (m.inScope (Machine.inScope run)).2.environment.stack.map Finmap.keys =
        m.environment.stack.map Finmap.keys := by
  intro tokens run m
  have linked : m.environment.Linked :=
    (Environment.linked_empty.define rfl "x" (.string "a")).1.push.1
  have ending : (run m).1 = .failed ⟨.undefinedVariable "z", 1⟩ := by decide +kernel
  -- From here on the program is not to be evaluated.
  clear_value tokens m
  have activity : Machine.Activity (Machine.inScope run) :=
    .inScope (.interpret 1 (placed_ofTokens tokens))
  obtain ⟨frame, -, nested, -⟩ := runAll_frame tokens 1 m linked
  exact ⟨linked, ending, activity, (frame _ _ Prod.mk.eta.symm).1,
    (nested _ _ activity _ _ Prod.mk.eta.symm).2.2⟩

end Lox
