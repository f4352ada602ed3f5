import Lox.Proofs.Execution.Frame
import Lox.Proofs.Execution.Visit
import Lox.Proofs.Phrase.Canonical

/-!
Scoping is lexical. Whether a run that comes to an occurrence of a variable finds it bound can be
read off the text: it does exactly if a declaration of the name that is a direct element of a
sequence around the occurrence stands before it.
-/

namespace Lox

namespace Machine

def Binds (x : String) (m : Machine) : Prop := m.environment.stack.Binds x

theorem Grows.binds_iff {L A : Finset String} {m m' : Machine} (h : Grows L L A m m') {x : String} :
    m'.Binds x ↔ m.Binds x ∨ x ∈ L :=
  h.stack.binds_iff

end Machine

namespace Node

/-- Among the elements of some sequence, a declaration of the name comes before the one with the
place in it. That the place is in the declaration itself does not count. -/
def Covered (root : Node) (way : List Nat) (x : String) : Prop :=
  ∃ outer i inner body init line, way = outer ++ i :: inner ∧
    root.at? outer = some (sequence body) ∧ .declare x init line ∈ body.take i

/-- The names declared inside a part before the part with some number. -/
def before : Node → Nat → Finset String
  | sequence body, i => Stmt.allDeclared (body.take i)
  | statement _, _ | expression _, _ => ∅

def Placed : Node → Prop
  | sequence body => Stmt.AllPlaced body
  | statement s => s.Placed
  | expression _ => True

section

variable {limit : Nat} {n c k : Node} {m m' : Machine} {i : Nat} {way : List Nat} {x : String}

theorem not_covered_nil : ¬n.Covered [] x := by
  rintro ⟨outer, i, inner, -, -, -, h, -⟩
  exact absurd h.symm (List.append_ne_nil_of_right_ne_nil _ (List.cons_ne_nil _ _))

/-- A place is covered from outside the part that it is in, or inside that part. -/
theorem covered_cons (h : n.children[i]? = some c) :
    n.Covered (i :: way) x ↔ x ∈ n.before i ∨ c.Covered way x := by
  constructor
  · rintro ⟨outer, j, inner, body, init, line, hw, hat, hd⟩
    cases outer with
    | nil =>
        obtain ⟨rfl, rfl⟩ := List.cons.inj hw
        cases hat
        exact .inl (Stmt.mem_allDeclared.2 ⟨init, line, hd⟩)
    | cons i' outer =>
        obtain ⟨rfl, rfl⟩ := List.cons.inj hw
        rw [at?, h, Option.bind_some] at hat
        exact .inr ⟨outer, j, inner, body, init, line, rfl, hat, hd⟩
  · rintro (hb | ⟨outer, j, inner, body, init, line, rfl, hat, hd⟩)
    · cases n with
      | sequence body =>
          obtain ⟨init, line, hd⟩ := Stmt.mem_allDeclared.1 hb
          exact ⟨[], i, way, body, init, line, rfl, rfl, hd⟩
      | statement | expression => cases hb
    · refine ⟨i :: outer, j, inner, body, init, line, rfl, ?_, hd⟩
      rw [at?, h, Option.bind_some, hat]

theorem Enters.placed (h : Enters limit n m i c m') (hn : n.Placed) : c.Placed := by
  cases h with
  | element hs => exact Stmt.allPlaced_iff.1 hn _ (List.mem_of_getElem? hs)
  | body => exact hn
  | ifTrue | loopBody => exact hn.2
  | thenBranch => exact hn.1.2
  | elseBranch => exact hn.2.2
  | _ => trivial

theorem Turns.grows {e : Expr} {s : Stmt} {turns : Nat} (h : Turns limit e s turns m m')
    (hd : s.isDeclaration = false) (hs : s.Placed) (linked : m.environment.Linked) :
    Machine.Grows ∅ ∅ (e.targets ∪ s.targets) m m' := by
  induction h with
  | start => exact Machine.grows_refl linked _
  | turn tested _ ran _ ih =>
      have test := Machine.grows_eval linked tested
      have ranOnce := Stmt.grows_run limit s hs test.linked
      rw [ran, Stmt.declared_eq_empty hd] at ranOnce
      exact ((test.assigning Finset.subset_union_left).after_silent
        (ranOnce.assigning Finset.subset_union_right)).after_silent (ih ranOnce.linked)

/-- What is bound when a part is entered was bound before, or is declared before it. -/
theorem Enters.binds_iff (h : Enters limit n m i c m') (hn : n.Placed)
    (linked : m.environment.Linked) :
    m'.environment.Linked ∧ ∀ x, m'.Binds x ↔ m.Binds x ∨ x ∈ n.before i := by
  have grown {n : Node} {i : Nat} {m m' : Machine} {A : Finset String}
      (h : Machine.Grows (n.before i) (n.before i) A m m') :
      m'.environment.Linked ∧ ∀ x, m'.Binds x ↔ m.Binds x ∨ x ∈ n.before i :=
    ⟨h.linked, fun _ => h.binds_iff⟩
  cases h with
  | @element body _ i _ _ _ ran =>
      have placed : Stmt.AllPlaced (body.take i) :=
        Stmt.allPlaced_iff.2 fun s hs => Stmt.allPlaced_iff.1 hn s (List.mem_of_mem_take hs)
      have grows := Stmt.grows_runAll limit (body.take i) placed linked
      rw [ran] at grows
      exact grown (n := sequence _) grows
  | body =>
      refine ⟨linked.push.1, fun x => ?_⟩
      show Stack.Binds x m.environment.push.stack ↔ _
      rw [linked.push.2, Stack.binds_cons]
      simp [Machine.Binds, before]
  | ifTrue s tested | thenBranch s s' tested | elseBranch s s' tested =>
      exact grown (n := statement _) (Machine.grows_eval linked tested)
  | loopCondition turns => exact grown (n := statement _) (turns.grows hn.1 hn.2 linked)
  | loopBody turns _ tested =>
      have turned := turns.grows hn.1 hn.2 linked
      have test := Machine.grows_eval turned.linked tested
      exact grown (n := statement _) (turned.after_silent
        (test.assigning Finset.subset_union_left))
  | right _ _ _ first | undecided _ first =>
      exact grown (n := expression _) (Machine.grows_eval linked first)
  | evaluated | printed | initializer | ifCondition | condition =>
      exact grown (n := statement _) (Machine.grows_refl linked ∅)
  | grouped | operand | left | deciding | assigned =>
      exact grown (n := expression _) (Machine.grows_refl linked ∅)

/-- What is bound when a run comes to some place was bound before, or covers the place. -/
theorem Reaches.binds_iff (h : Reaches limit n m way k m') (hn : n.Placed)
    (linked : m.environment.Linked) :
    m'.environment.Linked ∧ ∀ x, m'.Binds x ↔ m.Binds x ∨ n.Covered way x := by
  induction h with
  | here => exact ⟨linked, fun x => by simp [not_covered_nil]⟩
  | inside enters _ ih =>
      obtain ⟨linked₁, entered⟩ := enters.binds_iff hn linked
      obtain ⟨linked₂, more⟩ := ih (enters.placed hn) linked₁
      refine ⟨linked₂, fun x => ?_⟩
      rw [more, entered, covered_cons enters.child, or_assoc]

/-- A variable that is looked for is found exactly if it is bound. -/
theorem Uses.result_eq {line : Nat} {r : Except RuntimeError Value} (h : Uses n m x line r)
    (linked : m.environment.Linked) :
    m.Binds x ∧ (∃ v, r = .ok v) ∨ ¬m.Binds x ∧ r = .error ⟨.undefinedVariable x, line⟩ := by
  cases h with
  | var =>
      obtain ⟨v, found, he⟩ | ⟨absent, he⟩ := Machine.eval_var_cases x line m
      · refine .inl ⟨?_, v, congrArg Prod.fst he⟩
        rw [linked.lookup] at found
        by_contra unbound
        cases found.symm.trans (Stack.lookup_eq_none_iff.2 unbound)
      · rw [linked.lookup] at absent
        exact .inr ⟨Stack.lookup_eq_none_iff.1 absent, congrArg Prod.fst he⟩
  | @assign _ _ e _ v value =>
      obtain ⟨m₁, hv⟩ : ∃ m₁, m.eval e = (.ok v, m₁) := ⟨_, Prod.ext value rfl⟩
      have valued := Machine.grows_eval linked hv
      have same : m₁.Binds x ↔ m.Binds x := by simp [valued.binds_iff]
      have assigned := (valued.linked.assign? x v).2
      rw [← same]
      obtain ⟨env, found, he⟩ | ⟨absent, he⟩ := Machine.eval_assign_cases x line hv
      · refine .inl ⟨?_, v, congrArg Prod.fst he⟩
        rw [found] at assigned
        by_contra unbound
        cases assigned.trans (Stack.assign?_eq_none_iff.2 unbound)
      · rw [absent] at assigned
        exact .inr ⟨Stack.assign?_eq_none_iff.1 assigned.symm, congrArg Prod.fst he⟩

end

theorem Uses.ending_eq {limit line : Nat} {n : Node} {m : Machine} {x : String} {e : RuntimeError}
    (h : Uses n m x line (.error e)) : n.ending limit m = .failed e := by
  generalize hr : (Except.error e : Except RuntimeError Value) = r at h
  cases h <;> rw [ending, ← hr]

end Node

/-- For a run of a program from nothing bound: an occurrence of a variable that the run comes to is
found undefined if no declaration covers it, and has a value otherwise. If all occurrences are
covered, the run does not end for want of a variable; when it does end so, it is at an occurrence
that is not covered, whose name and line are reported. -/
theorem Program.undefined_iff_not_covered (tokens : List Token) (limit : Nat) (output : Output) :
    let body := (ofTokens tokens).statements
    let root := Node.sequence body
    let m : Machine := ⟨.empty, output⟩
    (∀ way k m' x line r, root.Reaches limit m way k m' → k.Uses m' x line r →
      (r = .error ⟨.undefinedVariable x, line⟩ ↔ ¬root.Covered way x) ∧
      (root.Covered way x → ∃ v, r = .ok v)) ∧
    ((∀ way k x line, root.at? way = some k → k.occurrence? = some (x, line) →
        root.Covered way x) →
      ∀ x line, (Stmt.runAll limit body m).1 ≠ .failed ⟨.undefinedVariable x, line⟩) ∧
    ∀ x line, (Stmt.runAll limit body m).1 = .failed ⟨.undefinedVariable x, line⟩ ↔
      ∃ way k m', root.Reaches limit m way k m' ∧
        k.Uses m' x line (.error ⟨.undefinedVariable x, line⟩) ∧
        root.at? way = some k ∧ k.occurrence? = some (x, line) ∧ ¬root.Covered way x := by
  intro body root m
  have placed : root.Placed := placed_ofTokens tokens
  have found (way : List Nat) (k : Node) (m' : Machine) (x : String) (line : Nat)
      (r : Except RuntimeError Value) (reaches : root.Reaches limit m way k m')
      (uses : k.Uses m' x line r) : root.Covered way x ∧ (∃ v, r = .ok v) ∨
        ¬root.Covered way x ∧ r = .error ⟨.undefinedVariable x, line⟩ := by
    obtain ⟨linked, bound⟩ := reaches.binds_iff placed Environment.linked_empty
    have covered : m'.Binds x ↔ root.Covered way x := by
      rw [bound]
      exact or_iff_right (Environment.not_binds_empty x)
    rw [← covered]
    exact uses.result_eq linked
  have failing (x : String) (line : Nat)
      (h : (Stmt.runAll limit body m).1 = .failed ⟨.undefinedVariable x, line⟩) :
      ∃ way k m', root.Reaches limit m way k m' ∧
        k.Uses m' x line (.error ⟨.undefinedVariable x, line⟩) ∧
        root.at? way = some k ∧ k.occurrence? = some (x, line) ∧ ¬root.Covered way x := by
    obtain ⟨way, k, m', reaches, uses⟩ := Node.exists_reaches_of_undefined root h
    obtain ⟨-, v, hv⟩ | ⟨uncovered, -⟩ := found way k m' x line _ reaches uses
    · cases hv
    · exact ⟨way, k, m', reaches, uses, reaches.at?_eq, uses.occurrence?_eq, uncovered⟩
  refine ⟨fun way k m' x line r reaches uses => ?_, fun all x line h => ?_,
    fun x line => ⟨failing x line, ?_⟩⟩
  · obtain ⟨covered, v, rfl⟩ | ⟨uncovered, rfl⟩ := found way k m' x line r reaches uses
    · exact ⟨by simp [covered], fun _ => ⟨v, rfl⟩⟩
    · exact ⟨by simp [uncovered], fun covered => absurd covered uncovered⟩
  · obtain ⟨way, k, -, -, -, at_way, occurs, uncovered⟩ := failing x line h
    exact uncovered (all way k x line at_way occurs)
  · rintro ⟨way, k, m', reaches, uses, -⟩
    exact reaches.ending_eq uses.ending_eq

theorem Program.undefined_iff_not_covered_block :
    let tokens := (Lexical.read "var a; \x7b print a; print b; var b; \x7d").tokens
    let root := Node.sequence (ofTokens tokens).statements
    let body := [Stmt.declare "a" none 1, .print (.var "a" 1)]
    let tokens' := written body ++ [Lexical.eofAt 1]
    (∃ way k m', root.Reaches 1 ⟨.empty, .empty⟩ way k m' ∧
      k.Uses m' "b" 1 (.error ⟨.undefinedVariable "b", 1⟩) ∧ ¬root.Covered way "b") ∧
    (∀ way k x line, (Node.sequence body).at? way = some k → k.occurrence? = some (x, line) →
      (Node.sequence body).Covered way x) ∧
    ∀ x line, (Stmt.runAll 1 (ofTokens tokens').statements ⟨.empty, .empty⟩).1 ≠
      .failed ⟨.undefinedVariable x, line⟩ := by
  intro tokens root body tokens'
  have ending : (Stmt.runAll 1 (ofTokens tokens).statements ⟨.empty, .empty⟩).1 =
      .failed ⟨.undefinedVariable "b", 1⟩ := by decide +kernel
  have read : (ofTokens tokens').statements = body :=
    congrArg statements (ofTokens_of_fits (by simp [body, Stmt.AllCanonical, Stmt.Canonical,
      Expr.Canonical]) (written_fits body) rfl)
  have covered : ∀ way k x line, (Node.sequence body).at? way = some k →
      k.occurrence? = some (x, line) → (Node.sequence body).Covered way x := by
    intro way k x line hat occurs
    rcases way with _ | ⟨_ | _ | _, _ | ⟨_ | _, _ | _⟩⟩ <;> cases hat <;> cases occurs
    exact ⟨[], 1, [0], body, none, 1, rfl, rfl, by simp [body]⟩
  -- From here on no program is to be evaluated.
  clear_value tokens tokens'
  refine ⟨?_, covered, ?_⟩
  · obtain ⟨way, k, m', reaches, uses, -⟩ :=
      ((undefined_iff_not_covered tokens 1 .empty).2.2 "b" 1).1 ending
    exact ⟨way, k, m', reaches, uses,
      ((undefined_iff_not_covered tokens 1 .empty).1 way k m' "b" 1 _ reaches uses).1.1 rfl⟩
  · have none_fails := (undefined_iff_not_covered tokens' 1 .empty).2.1
    rw [read] at none_fails
    rw [read]
    exact none_fails covered

end Lox
