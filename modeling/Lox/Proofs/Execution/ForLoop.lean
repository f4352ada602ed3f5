import Lox.Lexical.Reading
import Lox.Proofs.Execution.Padding
import Lox.Proofs.Phrase.Written

/-!
What `for` loops mean. As they are written they have a meaning of their own: the first clause in a
scope for the whole loop, then turn by turn the condition, the body and the increment, in that scope
and no other. The `while` loops in blocks that they are read as do the same.
-/

namespace Lox

namespace Machine

def advance : Option Expr → Machine → Ending × Machine
  | none => finish
  | some e => withValue e fun _ => finish

/-- At most `n` turns of a `for` loop, for as long as its condition holds; one that is absent always
does. -/
def repeatFor (condition increment : Option Expr) (body : Machine → Ending × Machine) :
    Nat → Machine → Ending × Machine
  | 0 => fun m => (.cutOff, m)
  | n + 1 =>
      let turn := andThen body (andThen (advance increment) (repeatFor condition increment body n))
      match condition with
      | none => turn
      | some e => choose e turn finish

end Machine

namespace Written

mutual

/-- Runs a statement as it is written. The scope of a `for` loop is there for its first clause. -/
def run (limit : Nat) : Written → Machine → Ending × Machine
  | .plain s => s.run limit
  | .block body => Machine.inScope (runAll limit body)
  | .ifThen e w => Machine.choose e (w.run limit) Machine.finish
  | .ifElse e w w' => Machine.choose e (w.run limit) (w'.run limit)
  | .whileLoop e w => Machine.repeatWhile e (w.run limit) limit
  | .forLoop none condition increment w =>
      Machine.repeatFor condition increment (w.run limit) limit
  | .forLoop (some s) condition increment w =>
      Machine.inScope (Machine.andThen (s.run limit)
        (Machine.repeatFor condition increment (w.run limit) limit))

def runAll (limit : Nat) : List Written → Machine → Ending × Machine
  | [] => Machine.finish
  | w :: rest => Machine.andThen (w.run limit) (runAll limit rest)

end

end Written

namespace Machine

variable {gaps : List Bool}

theorem andThen_finish (f : Machine → Ending × Machine) : andThen f finish = f := by
  funext m
  rw [andThen]
  rcases f m with ⟨_ | _ | _, m₁⟩ <;> rfl

theorem andThen_assoc (f g h : Machine → Ending × Machine) :
    andThen (andThen f g) h = andThen f (andThen g h) := by
  funext m
  rw [andThen, andThen, andThen]
  rcases f m with ⟨_ | _ | _, m₁⟩ <;> rfl

theorem choose_true (f g : Machine → Ending × Machine) :
    choose (.literal (.bool true)) f g = f := rfl

/-- A `for` loop agrees with a `while` loop if body and increment together agree with the body of
that one. -/
theorem agree_repeatFor (condition increment : Option Expr)
    {body body' : Machine → Ending × Machine}
    (h : Agree gaps (andThen body (advance increment)) body') (n : Nat) :
    Agree gaps (repeatFor condition increment body n)
      (repeatWhile (condition.getD (.literal (.bool true))) body' n) := by
  induction n with
  | zero => exact agree_idle Ending.cutOff
  | succ n ih =>
      have turn : Agree gaps
          (andThen body (andThen (advance increment) (repeatFor condition increment body n)))
          (andThen body' (repeatWhile (condition.getD (.literal (.bool true))) body' n)) := by
        rw [← andThen_assoc]
        exact h.andThen ih
      rw [repeatWhile_succ]
      cases condition with
      | none =>
          rw [repeatFor, Option.getD_none, choose_true]
          exact turn
      | some e =>
          rw [repeatFor]
          exact Agree.choose e turn agree_finish

end Machine

theorem Stmt.Starting.plain {u : List Token} {first : Option Stmt} (h : Starting u first) :
    ∀ s ∈ first, s.Plain := by
  rintro s ⟨⟩
  cases h with
  | declaring h | evaluating h => exact h.plain

/-- The body of a `for` loop and the increment after it agree with what they are read as. With an
increment that is a block, whose scope stays empty since no body is a declaration. -/
theorem Stmt.agree_turn {limit : Nat} {f : Machine → Ending × Machine} {s : Stmt} {gaps : List Bool}
    (increment : Option Expr) (h : ∀ gaps, Machine.Agree gaps f (s.run limit)) :
    Machine.Agree gaps (Machine.andThen f (Machine.advance increment))
      (Stmt.run limit (match increment with
        | some e => .block [s, .expression e]
        | none => s)) := by
  cases increment with
  | none =>
      rw [Machine.advance, Machine.andThen_finish]
      exact h gaps
  | some e =>
      have inner : Machine.Agree (true :: gaps) (Machine.andThen f (Machine.advance (some e)))
          (runAll limit [s, .expression e]) := by
        rw [runAll_cons_eq, runAll_singleton]
        exact (h _).andThen (Machine.Agree.withValue e fun _ => Machine.agree_finish)
      exact inner.inEmptyScope

namespace Written

theorem agree_runAll (limit : Nat) {body : List Written}
    (h : ∀ w ∈ body, ∀ gaps, (w.isDeclaration = true → Machine.Aligned gaps) →
      Machine.Agree gaps (w.run limit) (w.lower.run limit))
    {gaps : List Bool} (aligned : Machine.Aligned gaps) :
    Machine.Agree gaps (runAll limit body) (Stmt.runAll limit (lowerAll body)) := by
  induction body with
  | nil => exact Machine.agree_finish
  | cons w rest ih =>
      obtain ⟨first, more⟩ := List.forall_mem_cons.1 h
      exact (first gaps fun _ => aligned).andThen (ih more)

/-- Statements as they are written and what they are read as agree, where a declaration must bind
its name in the same frame. -/
theorem Wording.agree {u : List Token} {w : Written} {tail : Bool} (h : Wording u w tail)
    (limit : Nat) (gaps : List Bool) (aligned : w.isDeclaration = true → Machine.Aligned gaps) :
    Machine.Agree gaps (w.run limit) (w.lower.run limit) := by
  induction h generalizing gaps with
  | plain _ hs => exact Stmt.agree_plain limit _ hs aligned
  | block _ _ _ ih =>
      have inside := agree_runAll limit (List.forall_mem_map.2 ih)
        (Machine.aligned_false gaps)
      exact inside.inScope
  | ifThen _ _ _ _ hw _ ih =>
      rw [Written.lower, run, Stmt.run_ifThen]
      exact Machine.Agree.choose _ (ih gaps (by simp [hw])) Machine.agree_finish
  | ifElse _ _ _ _ hw _ _ hw' _ ih ih' =>
      rw [Written.lower, run, Stmt.run_ifElse]
      exact Machine.Agree.choose _ (ih gaps (by simp [hw])) (ih' gaps (by simp [hw']))
  | whileLoop _ _ _ _ hw _ ih =>
      exact Machine.Agree.repeatWhile _ (ih gaps (by simp [hw])) limit
  | @forLoop _ _ _ _ _ _ _ _ first condition increment w _ _ _ start _ _ _ _ hw _ ih =>
      have turns (gaps : List Bool) :
          Machine.Agree gaps (Machine.repeatFor condition increment (w.run limit) limit) _ :=
        Machine.agree_repeatFor condition increment
          (Stmt.agree_turn increment fun gaps => ih gaps (by simp [hw])) limit
      cases first with
      | none => exact turns gaps
      | some s =>
          have begun : Machine.Agree (false :: gaps) (s.run limit) (s.run limit) :=
            Stmt.agree_plain limit s (start.plain s rfl) fun _ => Machine.aligned_false gaps
          show Machine.Agree gaps (Machine.inScope _) (Machine.inScope (Stmt.runAll limit [s, _]))
          refine Machine.Agree.inScope ?_
          rw [Stmt.runAll_cons_eq, Stmt.runAll_singleton]
          exact begun.andThen (turns (false :: gaps))

end Written

/-- What is read without a fault is written in some way, with all its `for` loops; and in whatever
way it is written, from every machine and under every limit it is run as it is written: it ends in
the same way, has printed the same, and leaves the same values bound in every scope. -/
theorem Program.runs_as_written (tokens : List Token) :
    ((ofTokens tokens).faults = [] → ∃ written, Written.Words (body tokens) written) ∧
    ∀ written, Written.Words (body tokens) written →
      (ofTokens tokens).faults = [] ∧
      (ofTokens tokens).statements = Written.lowerAll written ∧
      ∀ (limit : Nat) (m : Machine), m.environment.Linked →
        let direct := Written.runAll limit written m
        let lowered := Stmt.runAll limit (ofTokens tokens).statements m
        lowered.1 = direct.1 ∧ lowered.2.output = direct.2.output ∧
          lowered.2.environment.stack = direct.2.environment.stack := by
  refine ⟨fun clean => ?_, fun written words => ?_⟩
  · obtain ⟨written, words, -⟩ := Written.exists_words (wording_of_faults_nil clean)
    exact ⟨written, words⟩
  · rw [ofTokens_of_wording words.lower]
    refine ⟨rfl, rfl, fun limit m linked => ?_⟩
    obtain ⟨parts, -, rfl, worded⟩ := words
    have agree := Written.agree_runAll limit
      (List.forall_mem_map.2 fun p hp => (worded p hp).agree limit) Machine.aligned_nil
    obtain ⟨ending, pads, -⟩ := agree m m ⟨linked, linked, rfl, rfl⟩
    exact ⟨ending, pads.output, pads.stack⟩

theorem Program.runs_as_written_nested :
    let tokens :=
      (Lexical.read "for (var go = x; go; go = null) for (;; y = x) print go;").tokens
    let written := [Written.forLoop (some (.declare "go" (some (.var "x" 1)) 1))
      (some (.var "go" 1)) (some (.assign "go" 1 (.literal .nil)))
      (.forLoop none none (some (.assign "y" 1 (.var "x" 1))) (.plain (.print (.var "go" 1))))]
    let m : Machine := ⟨(Environment.empty.define "x" (.string "a")).push, .empty⟩
    m.environment.Linked ∧ (ofTokens tokens).faults = [] ∧ Written.Words (body tokens) written ∧
      (∃ w, Written.Words (body tokens) w) ∧
      (Stmt.runAll 1 (ofTokens tokens).statements m).1 = .failed ⟨.undefinedVariable "y", 1⟩ ∧
      (Stmt.runAll 1 (ofTokens tokens).statements m).2.output = ⟨"a\n"⟩ ∧
      (Stmt.runAll 1 (ofTokens tokens).statements m).2.environment.stack =
        (Written.runAll 1 written m).2.environment.stack := by
  intro tokens written m
  have linked : m.environment.Linked :=
    (Environment.linked_empty.define rfl "x" (.string "a")).1.push.1
  have words : Written.Words (body tokens) written := by
    let word (k : Kind) (text : String) : Token := ⟨k, text, none, 1⟩
    let loop := word .forWord "for"
    let opening := word .leftParen "("
    let closing := word .rightParen ")"
    let semicolon := word .semicolon ";"
    let equal := word .equal "="
    have name (text : String) : Expr.Wording [word .identifier text] (.var text 1) := .var rfl
    have printing : Written.Wording _ (.plain (.print (.var "go" 1))) false :=
      .plain (.print (p := word .printWord "print") (t := semicolon) rfl (name "go") rfl) trivial
    have inner := Written.Wording.forLoop (f := loop) (l := opening) (t := semicolon)
      (r := closing) rfl rfl (.absent (t := semicolon) rfl) .absent rfl
      (.present (.assign (n := word .identifier "y") (q := equal) rfl rfl (name "x"))) rfl rfl
      printing
    have outer := Written.Wording.forLoop (f := loop) (l := opening) (t := semicolon)
      (r := closing) rfl rfl
      (.declaring (.initialized (v := word .varWord "var") (n := word .identifier "go")
        (q := equal) (t := semicolon) rfl rfl rfl (name "x") rfl))
      (.present (name "go")) rfl
      (.present (.assign (n := word .identifier "go") (q := equal) rfl rfl
        (.literal (t := word .nullWord "null") rfl))) rfl rfl inner
    exact ⟨[(_, _, _)], by decide +kernel, rfl, List.forall_mem_singleton.2 outer⟩
  have shown : ((Written.runAll 1 written m).1, (Written.runAll 1 written m).2.output) =
      (.failed ⟨.undefinedVariable "y", 1⟩, ⟨"a\n"⟩) := by decide +kernel
  obtain ⟨failed, printed⟩ := Prod.mk.inj shown
  obtain ⟨clean, -, run⟩ := (runs_as_written tokens).2 written words
  obtain ⟨ending, output, stack⟩ := run 1 m linked
  exact ⟨linked, clean, words, (runs_as_written tokens).1 clean, ending.trans failed,
    output.trans printed, stack⟩

end Lox
