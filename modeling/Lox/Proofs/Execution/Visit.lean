import Lox.Proofs.Execution.Adequacy

/-!
The parts of a program that a run comes to. A run of a part enters the parts directly inside it,
each when those before it have come to what they have to; where it comes to in the end is named by
the way there. A run fails exactly if a part that it enters does, down to the part that is at fault.
-/

namespace Lox

/-- A part of a program. A program and the body of a block are sequences. -/
inductive Node
  | sequence (body : List Stmt)
  | statement (s : Stmt)
  | expression (e : Expr)

namespace Stmt

/-- Statements are run by running the first of them and, if those finish, the others. -/
theorem runAll_append (limit : Nat) (body body' : List Stmt) (m : Machine) :
    runAll limit (body ++ body') m =
      if (runAll limit body m).1 = .finished then runAll limit body' (runAll limit body m).2
      else runAll limit body m := by
  induction body generalizing m with
  | nil => rfl
  | cons s rest ih =>
      rw [List.cons_append, runAll, runAll]
      cases s.run limit m with
      | mk ending m₁ =>
          cases ending with
          | finished => exact ih m₁
          | failed _ | cutOff => rfl

theorem runAll_cons (limit : Nat) (s : Stmt) (rest : List Stmt) (m : Machine) :
    runAll limit (s :: rest) m =
      if (s.run limit m).1 = .finished then runAll limit rest (s.run limit m).2
      else s.run limit m := by
  rw [runAll]
  cases s.run limit m with
  | mk ending m₁ => cases ending <;> rfl

end Stmt

namespace Machine

section eval

variable {m m₁ m₂ : Machine} {e e' : Expr} {v : Value} {x : RuntimeError}

theorem eval_eq_iff {r : Except RuntimeError Value} :
    m.eval e = (r, m₁) ↔
      e.eval m.environment = (r, m₁.environment) ∧ m₁.output = m.output := by
  obtain ⟨env, out⟩ := m
  obtain ⟨env₁, out₁⟩ := m₁
  simp [eval, Prod.ext_iff, and_assoc, eq_comm]

theorem eval_unary_of_ok (op : UnaryOp) (line : Nat) (he : m.eval e = (.ok v, m₁)) :
    m.eval (.unary op line e) = (op.apply line v, m₁) := by
  rw [eval_eq_iff] at he ⊢
  simp [Expr.eval, he.1, he.2]

theorem eval_unary_of_error (op : UnaryOp) (line : Nat) (he : m.eval e = (.error x, m₁)) :
    m.eval (.unary op line e) = (.error x, m₁) := by
  rw [eval_eq_iff] at he ⊢
  simp [Expr.eval, he.1, he.2]

theorem eval_binary_of_ok (op : BinaryOp) (line : Nat) {w : Value} (he : m.eval e = (.ok v, m₁))
    (he' : m₁.eval e' = (.ok w, m₂)) :
    m.eval (.binary op line e e') = (op.apply line v w, m₂) := by
  rw [eval_eq_iff] at he he' ⊢
  simp [Expr.eval, he.1, he'.1, he'.2, he.2]

theorem eval_binary_of_left_error (op : BinaryOp) (line : Nat) (e' : Expr)
    (he : m.eval e = (.error x, m₁)) : m.eval (.binary op line e e') = (.error x, m₁) := by
  rw [eval_eq_iff] at he ⊢
  simp [Expr.eval, he.1, he.2]

theorem eval_binary_of_right_error (op : BinaryOp) (line : Nat) (he : m.eval e = (.ok v, m₁))
    (he' : m₁.eval e' = (.error x, m₂)) : m.eval (.binary op line e e') = (.error x, m₂) := by
  rw [eval_eq_iff] at he he' ⊢
  simp [Expr.eval, he.1, he'.1, he'.2, he.2]

theorem eval_logical_of_decided {op : LogicalOp} (e' : Expr) (he : m.eval e = (.ok v, m₁))
    (hv : op.decidedBy v = true) : m.eval (.logical op e e') = (.ok v, m₁) := by
  rw [eval_eq_iff] at he ⊢
  simp [Expr.eval, he.1, he.2, hv]

theorem eval_logical_of_undecided {op : LogicalOp} (e' : Expr) (he : m.eval e = (.ok v, m₁))
    (hv : op.decidedBy v = false) : m.eval (.logical op e e') = m₁.eval e' := by
  rw [eval_eq_iff] at he
  obtain ⟨r, m₂, he'⟩ : ∃ r m₂, m₁.eval e' = (r, m₂) := ⟨_, _, rfl⟩
  rw [he']
  rw [eval_eq_iff] at he' ⊢
  simp [Expr.eval, he.1, he'.1, he'.2, he.2, hv]

theorem eval_logical_of_error (op : LogicalOp) (e' : Expr) (he : m.eval e = (.error x, m₁)) :
    m.eval (.logical op e e') = (.error x, m₁) := by
  rw [eval_eq_iff] at he ⊢
  simp [Expr.eval, he.1, he.2]

theorem eval_assign_of_error (name : String) (line : Nat) (he : m.eval e = (.error x, m₁)) :
    m.eval (.assign name line e) = (.error x, m₁) := by
  rw [eval_eq_iff] at he ⊢
  simp [Expr.eval, he.1, he.2]

theorem eval_var_cases (name : String) (line : Nat) (m : Machine) :
    (∃ v, m.environment.lookup name = some v ∧ m.eval (.var name line) = (.ok v, m)) ∨
      m.environment.lookup name = none ∧
        m.eval (.var name line) = (.error ⟨.undefinedVariable name, line⟩, m) := by
  cases h : m.environment.lookup name with
  | some v => exact .inl ⟨v, rfl, by simp [eval_eq_iff, Expr.eval, h]⟩
  | none => exact .inr ⟨rfl, by simp [eval_eq_iff, Expr.eval, h]⟩

theorem eval_assign_cases (name : String) (line : Nat) (he : m.eval e = (.ok v, m₁)) :
    (∃ env, m₁.environment.assign? name v = some env ∧
        m.eval (.assign name line e) = (.ok v, ⟨env, m₁.output⟩)) ∨
      m₁.environment.assign? name v = none ∧
        m.eval (.assign name line e) = (.error ⟨.undefinedVariable name, line⟩, m₁) := by
  rw [eval_eq_iff] at he
  cases h : m₁.environment.assign? name v with
  | some env => exact .inl ⟨env, rfl, by simp [eval_eq_iff, Expr.eval, he.1, he.2, h]⟩
  | none => exact .inr ⟨rfl, by simp [eval_eq_iff, Expr.eval, he.1, he.2, h]⟩

end eval

end Machine

namespace Node

def children : Node → List Node
  | sequence body => body.map statement
  | statement (.expression e) | statement (.print e) | statement (.declare _ (some e) _) =>
      [expression e]
  | statement (.declare _ none _) => []
  | statement (.block body) => [sequence body]
  | statement (.ifThen e s) | statement (.loop e s) => [expression e, statement s]
  | statement (.ifElse e s s') => [expression e, statement s, statement s']
  | expression (.literal _) | expression (.var _ _) => []
  | expression (.grouping e) | expression (.unary _ _ e) | expression (.assign _ _ e) =>
      [expression e]
  | expression (.binary _ _ l r) | expression (.logical _ l r) => [expression l, expression r]

/-- The part that a way leads to: at each part, the number of the part inside it to go on with. -/
def at? : Node → List Nat → Option Node
  | n, [] => some n
  | n, i :: way => n.children[i]?.bind (at? · way)

def occurrence? : Node → Option (String × Nat)
  | expression (.var x line) | expression (.assign x line _) => some (x, line)
  | _ => none

theorem sizeOf_child {n c : Node} (h : c ∈ n.children) : sizeOf c < sizeOf n := by
  cases n with
  | sequence body =>
      obtain ⟨s, hs, rfl⟩ := List.mem_map.1 h
      have smaller := List.sizeOf_lt_of_mem hs
      simpa using smaller
  | statement s =>
      cases s with
      | declare _ e _ =>
          cases e with
          | none => cases h
          | some e =>
              obtain rfl := List.mem_singleton.1 h
              simp
              omega
      | expression | print | block =>
          obtain rfl := List.mem_singleton.1 h
          simp
      | ifThen | loop | ifElse =>
          simp only [children, List.mem_cons, List.not_mem_nil, or_false] at h
          rcases h with rfl | rfl | rfl <;> simp <;> omega
  | expression e =>
      cases e with
      | literal | var => cases h
      | grouping | unary | assign =>
          obtain rfl := List.mem_singleton.1 h
          simp only [expression.sizeOf_spec, Expr.grouping.sizeOf_spec, Expr.unary.sizeOf_spec,
            Expr.assign.sizeOf_spec]
          omega
      | binary | logical =>
          simp only [children, List.mem_cons, List.not_mem_nil, or_false] at h
          rcases h with rfl | rfl <;>
            simp only [expression.sizeOf_spec, Expr.binary.sizeOf_spec, Expr.logical.sizeOf_spec] <;>
            omega

def ending (limit : Nat) : Node → Machine → Ending
  | sequence body, m => (Stmt.runAll limit body m).1
  | statement s, m => (s.run limit m).1
  | expression e, m =>
      match (m.eval e).1 with
      | .ok _ => .finished
      | .error x => .failed x

inductive Turns (limit : Nat) (condition : Expr) (body : Stmt) : Nat → Machine → Machine → Prop
  | start (m : Machine) : Turns limit condition body 0 m m
  | turn {n : Nat} {m m₁ m₂ m₃ : Machine} {v : Value} (tested : m.eval condition = (.ok v, m₁))
      (hv : v.truthy = true) (ran : body.run limit m₁ = (.finished, m₂))
      (more : Turns limit condition body n m₂ m₃) : Turns limit condition body (n + 1) m m₃

/-- The run of a part from a machine comes to the part inside it with some number, with the machine
as it is then. -/
inductive Enters (limit : Nat) : Node → Machine → Nat → Node → Machine → Prop
  | element {body : List Stmt} {s : Stmt} {i : Nat} {m m' : Machine} (h : body[i]? = some s)
      (before : Stmt.runAll limit (body.take i) m = (.finished, m')) :
      Enters limit (sequence body) m i (statement s) m'
  | evaluated (e : Expr) (m : Machine) :
      Enters limit (statement (.expression e)) m 0 (expression e) m
  | printed (e : Expr) (m : Machine) : Enters limit (statement (.print e)) m 0 (expression e) m
  | initializer (x : String) (e : Expr) (line : Nat) (m : Machine) :
      Enters limit (statement (.declare x (some e) line)) m 0 (expression e) m
  | body (body : List Stmt) (m : Machine) :
      Enters limit (statement (.block body)) m 0 (sequence body) m.push
  | ifCondition (e : Expr) (s : Stmt) (m : Machine) :
      Enters limit (statement (.ifThen e s)) m 0 (expression e) m
  | ifTrue {e : Expr} (s : Stmt) {m m' : Machine} {v : Value} (tested : m.eval e = (.ok v, m'))
      (hv : v.truthy = true) : Enters limit (statement (.ifThen e s)) m 1 (statement s) m'
  | condition (e : Expr) (s s' : Stmt) (m : Machine) :
      Enters limit (statement (.ifElse e s s')) m 0 (expression e) m
  | thenBranch {e : Expr} (s s' : Stmt) {m m' : Machine} {v : Value}
      (tested : m.eval e = (.ok v, m')) (hv : v.truthy = true) :
      Enters limit (statement (.ifElse e s s')) m 1 (statement s) m'
  | elseBranch {e : Expr} (s s' : Stmt) {m m' : Machine} {v : Value}
      (tested : m.eval e = (.ok v, m')) (hv : v.truthy = false) :
      Enters limit (statement (.ifElse e s s')) m 2 (statement s') m'
  | loopCondition {e : Expr} {s : Stmt} {n : Nat} {m m' : Machine}
      (turns : Turns limit e s n m m') (hn : n < limit) :
      Enters limit (statement (.loop e s)) m 0 (expression e) m'
  | loopBody {e : Expr} {s : Stmt} {n : Nat} {m m₁ m' : Machine} {v : Value}
      (turns : Turns limit e s n m m₁) (hn : n < limit) (tested : m₁.eval e = (.ok v, m'))
      (hv : v.truthy = true) : Enters limit (statement (.loop e s)) m 1 (statement s) m'
  | grouped (e : Expr) (m : Machine) :
      Enters limit (expression (.grouping e)) m 0 (expression e) m
  | operand (op : UnaryOp) (line : Nat) (e : Expr) (m : Machine) :
      Enters limit (expression (.unary op line e)) m 0 (expression e) m
  | left (op : BinaryOp) (line : Nat) (e e' : Expr) (m : Machine) :
      Enters limit (expression (.binary op line e e')) m 0 (expression e) m
  | right (op : BinaryOp) (line : Nat) {e : Expr} (e' : Expr) {m m' : Machine} {v : Value}
      (first : m.eval e = (.ok v, m')) :
      Enters limit (expression (.binary op line e e')) m 1 (expression e') m'
  | deciding (op : LogicalOp) (e e' : Expr) (m : Machine) :
      Enters limit (expression (.logical op e e')) m 0 (expression e) m
  | undecided {op : LogicalOp} {e : Expr} (e' : Expr) {m m' : Machine} {v : Value}
      (first : m.eval e = (.ok v, m')) (hv : op.decidedBy v = false) :
      Enters limit (expression (.logical op e e')) m 1 (expression e') m'
  | assigned (x : String) (line : Nat) (e : Expr) (m : Machine) :
      Enters limit (expression (.assign x line e)) m 0 (expression e) m

inductive Reaches (limit : Nat) : Node → Machine → List Nat → Node → Machine → Prop
  | here (n : Node) (m : Machine) : Reaches limit n m [] n m
  | inside {n c k : Node} {m m₁ m₂ : Machine} {i : Nat} {way : List Nat}
      (enters : Enters limit n m i c m₁) (more : Reaches limit c m₁ way k m₂) :
      Reaches limit n m (i :: way) k m₂

/-- A part looks for the variable of which it is an occurrence, and what comes of that. An
assignment does so once it has its value. -/
inductive Uses : Node → Machine → String → Nat → Except RuntimeError Value → Prop
  | var (x : String) (line : Nat) (m : Machine) :
      Uses (expression (.var x line)) m x line (m.eval (.var x line)).1
  | assign (x : String) (line : Nat) {e : Expr} {m : Machine} {v : Value}
      (value : (m.eval e).1 = .ok v) :
      Uses (expression (.assign x line e)) m x line (m.eval (.assign x line e)).1

theorem Uses.occurrence?_eq {n : Node} {m : Machine} {x : String} {line : Nat}
    {r : Except RuntimeError Value} (h : Uses n m x line r) : n.occurrence? = some (x, line) := by
  cases h <;> rfl

theorem uses_var {x : String} {line : Nat} {m m' : Machine} {r : Except RuntimeError Value}
    (h : m.eval (.var x line) = (r, m')) : Uses (expression (.var x line)) m x line r := by
  have uses := Uses.var x line m
  rwa [h] at uses

theorem uses_assign {x : String} {line : Nat} {e : Expr} {m m₁ m' : Machine} {v : Value}
    {r : Except RuntimeError Value} (value : m.eval e = (.ok v, m₁))
    (h : m.eval (.assign x line e) = (r, m')) :
    Uses (expression (.assign x line e)) m x line r := by
  have uses := Uses.assign x line (congrArg Prod.fst value)
  rwa [h] at uses

/-- A part is itself what an error is due to. An operator is once its operands have values. -/
inductive Raises : Node → Machine → RuntimeError → Prop
  | unary {op : UnaryOp} {line : Nat} {e : Expr} {m m₁ : Machine} {v : Value} {x : RuntimeError}
      (operand : m.eval e = (.ok v, m₁)) (h : op.Gives line v (.error x)) :
      Raises (expression (.unary op line e)) m x
  | binary {op : BinaryOp} {line : Nat} {l r : Expr} {m m₁ m₂ : Machine} {v w : Value}
      {x : RuntimeError} (left : m.eval l = (.ok v, m₁)) (right : m₁.eval r = (.ok w, m₂))
      (h : op.Gives line v w (.error x)) : Raises (expression (.binary op line l r)) m x
  | uses {n : Node} {m : Machine} {y : String} {line : Nat}
      (h : Uses n m y line (.error ⟨.undefinedVariable y, line⟩)) :
      Raises n m ⟨.undefinedVariable y, line⟩

theorem Raises.uses_of_undefined {n : Node} {m : Machine} {y : String} {line : Nat}
    (h : Raises n m ⟨.undefinedVariable y, line⟩) :
    Uses n m y line (.error ⟨.undefinedVariable y, line⟩) := by
  cases h with
  | unary _ given | binary _ _ given => cases given
  | uses h => exact h

section

variable {limit : Nat} {n c k : Node} {m m' : Machine} {i : Nat} {way : List Nat}

theorem Enters.child (h : Enters limit n m i c m') : n.children[i]? = some c := by
  cases h with
  | element h => rw [children, List.getElem?_map, h, Option.map_some]
  | _ => rfl

theorem Reaches.at?_eq (h : Reaches limit n m way k m') : n.at? way = some k := by
  induction h with
  | here => rfl
  | inside enters _ ih => rw [at?, enters.child, Option.bind_some, ih]

theorem Turns.repeatWhile_eq {e : Expr} {s : Stmt} {turns : Nat} (h : Turns limit e s turns m m')
    (more : Nat) :
    Machine.repeatWhile e (s.run limit) (turns + more) m =
      Machine.repeatWhile e (s.run limit) more m' := by
  induction h with
  | start => rw [Nat.zero_add]
  | turn tested hv ran _ ih =>
      rw [Nat.add_right_comm, Machine.repeatWhile, tested]
      simp only [hv, if_true, ran]
      exact ih

theorem ending_expression_of_error {e : Expr} {x : RuntimeError} (h : m.eval e = (.error x, m')) :
    (expression e).ending limit m = .failed x := by
  rw [ending, h]

theorem exists_of_ending_expression {e : Expr} {x : RuntimeError}
    (h : (expression e).ending limit m = .failed x) : ∃ m', m.eval e = (.error x, m') := by
  rw [ending] at h
  cases he : m.eval e with
  | mk r m' =>
      rw [he] at h
      cases r with
      | ok v => cases h
      | error y =>
          cases h
          exact ⟨m', rfl⟩

/-- If a part that is entered fails, so does the one around it, in the same way. -/
theorem Enters.ending_eq (h : Enters limit n m i c m') {x : RuntimeError}
    (fails : c.ending limit m' = .failed x) : n.ending limit m = .failed x := by
  cases h with
  | @element body s i _ _ hs before =>
      have split : body = body.take i ++ s :: body.drop (i + 1) := by
        rw [List.getElem?_eq_some_iff] at hs
        obtain ⟨hi, rfl⟩ := hs
        rw [List.getElem_cons_drop, List.take_append_drop]
      have failed : (s.run limit m').1 = .failed x := fails
      rw [ending, split, Stmt.runAll_append, before, if_pos rfl, Stmt.runAll_cons, failed,
        if_neg (by simp), failed]
  | body => exact fails
  | ifTrue s tested hv | thenBranch s s' tested hv =>
      rw [ending, Stmt.run, tested]
      simp only [hv, if_true]
      exact fails
  | elseBranch s s' tested hv =>
      rw [ending, Stmt.run, tested]
      simp only [hv, Bool.false_eq_true, if_false]
      exact fails
  | @loopCondition e s turns _ _ before hn =>
      obtain ⟨m₁, he⟩ := exists_of_ending_expression fails
      obtain ⟨more, rfl⟩ : ∃ more, limit = turns + (more + 1) := ⟨limit - turns - 1, by omega⟩
      rw [ending, Stmt.run, before.repeatWhile_eq, Machine.repeatWhile, he]
  | @loopBody e s turns _ m₁ _ v before hn tested hv =>
      obtain ⟨more, rfl⟩ : ∃ more, limit = turns + (more + 1) := ⟨limit - turns - 1, by omega⟩
      have failed : (s.run (turns + (more + 1)) m').1 = .failed x := fails
      rw [ending, Stmt.run, before.repeatWhile_eq, Machine.repeatWhile, tested]
      simp only [hv, if_true]
      cases hb : s.run (turns + (more + 1)) m' with
      | mk e m₂ =>
          rw [hb] at failed
          cases failed
          rfl
  | grouped => exact fails
  | undecided e' first hv =>
      obtain ⟨m₁, he⟩ := exists_of_ending_expression fails
      rw [← Machine.eval_logical_of_undecided e' first hv] at he
      exact ending_expression_of_error he
  | right op line e' first =>
      obtain ⟨m₁, he⟩ := exists_of_ending_expression fails
      exact ending_expression_of_error (Machine.eval_binary_of_right_error op line first he)
  | operand op line e =>
      obtain ⟨m₁, he⟩ := exists_of_ending_expression fails
      exact ending_expression_of_error (Machine.eval_unary_of_error op line he)
  | left op line e e' =>
      obtain ⟨m₁, he⟩ := exists_of_ending_expression fails
      exact ending_expression_of_error (Machine.eval_binary_of_left_error op line e' he)
  | deciding op e e' =>
      obtain ⟨m₁, he⟩ := exists_of_ending_expression fails
      exact ending_expression_of_error (Machine.eval_logical_of_error op e' he)
  | assigned y line e =>
      obtain ⟨m₁, he⟩ := exists_of_ending_expression fails
      exact ending_expression_of_error (Machine.eval_assign_of_error y line he)
  | evaluated | printed | initializer | ifCondition | condition =>
      obtain ⟨m₁, he⟩ := exists_of_ending_expression fails
      rw [ending, Stmt.run, he]

/-- A part that a run comes to fails only together with the run. -/
theorem Reaches.ending_eq (h : Reaches limit n m way k m') {x : RuntimeError}
    (fails : k.ending limit m' = .failed x) : n.ending limit m = .failed x := by
  induction h with
  | here => exact fails
  | inside enters _ ih => exact enters.ending_eq (ih fails)

end

section fails

variable {limit : Nat} {m : Machine} {x : RuntimeError}

/-- Statements that fail do so at one of them, when all before it have finished. -/
theorem exists_element_of_failed {body : List Stmt} (h : (Stmt.runAll limit body m).1 = .failed x) :
    ∃ i s m', body[i]? = some s ∧ Stmt.runAll limit (body.take i) m = (.finished, m') ∧
      (s.run limit m').1 = .failed x := by
  induction body generalizing m with
  | nil => cases h
  | cons s rest ih =>
      rw [Stmt.runAll] at h
      cases hs : s.run limit m with
      | mk ending m₁ =>
          rw [hs] at h
          cases ending with
          | finished =>
              obtain ⟨i, s', m', hi, before, failed⟩ := ih h
              refine ⟨i + 1, s', m', hi, ?_, failed⟩
              rw [List.take_succ_cons, Stmt.runAll, hs]
              exact before
          | failed y => exact ⟨0, s, m, rfl, rfl, (congrArg Prod.fst hs).trans h⟩
          | cutOff => cases h

/-- A loop that fails does so in a condition or a body, after some turns. -/
theorem exists_turns_of_failed {e : Expr} {s : Stmt} {n : Nat}
    (h : (Machine.repeatWhile e (s.run limit) n m).1 = .failed x) :
    ∃ turns m₁, Turns limit e s turns m m₁ ∧ turns < n ∧
      ((∃ m', m₁.eval e = (.error x, m')) ∨
        ∃ v m', m₁.eval e = (.ok v, m') ∧ v.truthy = true ∧ (s.run limit m').1 = .failed x) := by
  induction n generalizing m with
  | zero => cases h
  | succ n ih =>
      rw [Machine.repeatWhile] at h
      cases he : m.eval e with
      | mk r m₁ =>
          rw [he] at h
          cases r with
          | error y =>
              cases h
              exact ⟨0, m, .start m, Nat.succ_pos n, .inl ⟨m₁, he⟩⟩
          | ok v =>
              dsimp only at h
              split at h
              · rename_i hv
                cases hs : s.run limit m₁ with
                | mk ending m₂ =>
                    rw [hs] at h
                    cases ending with
                    | finished =>
                        obtain ⟨turns, m₃, more, hn, failed⟩ := ih h
                        exact ⟨turns + 1, m₃, .turn he hv hs more, Nat.succ_lt_succ hn, failed⟩
                    | failed y =>
                        exact ⟨0, m, .start m, Nat.succ_pos n,
                          .inr ⟨v, m₁, he, hv, (congrArg Prod.fst hs).trans h⟩⟩
                    | cutOff => cases h
              · cases h

/-- An expression that fails is itself what the error is due to, or an operand of it fails. -/
theorem exists_enters_of_failed_expression {e : Expr}
    (h : (expression e).ending limit m = .failed x) :
    (expression e).Raises m x ∨
      ∃ i c m', Enters limit (expression e) m i c m' ∧ c.ending limit m' = .failed x := by
  obtain ⟨m', he⟩ := exists_of_ending_expression h
  cases e with
  | literal v => cases he
  | grouping e => exact .inr ⟨0, _, m, .grouped e m, ending_expression_of_error he⟩
  | unary op l e =>
      cases ho : m.eval e with
      | mk r m₁ =>
          cases r with
          | ok v =>
              have given := op.gives_apply l v
              rw [Machine.eval_unary_of_ok op l ho] at he
              rw [(Prod.mk.inj he).1] at given
              exact .inl (.unary ho given)
          | error x =>
              rw [Machine.eval_unary_of_error op l ho] at he
              cases he
              exact .inr ⟨0, _, m, .operand op l e m, ending_expression_of_error ho⟩
  | binary op l e e' =>
      cases hl : m.eval e with
      | mk r m₁ =>
          cases r with
          | error x =>
              rw [Machine.eval_binary_of_left_error op l e' hl] at he
              cases he
              exact .inr ⟨0, _, m, .left op l e e' m, ending_expression_of_error hl⟩
          | ok v =>
              cases hr : m₁.eval e' with
              | mk r m₂ =>
                  cases r with
                  | ok w =>
                      have given := op.gives_apply l v w
                      rw [Machine.eval_binary_of_ok op l hl hr] at he
                      rw [(Prod.mk.inj he).1] at given
                      exact .inl (.binary hl hr given)
                  | error x =>
                      rw [Machine.eval_binary_of_right_error op l hl hr] at he
                      cases he
                      exact .inr ⟨1, _, m₁, .right op l e' hl, ending_expression_of_error hr⟩
  | logical op e e' =>
      cases hl : m.eval e with
      | mk r m₁ =>
          cases r with
          | error x =>
              rw [Machine.eval_logical_of_error op e' hl] at he
              cases he
              exact .inr ⟨0, _, m, .deciding op e e' m, ending_expression_of_error hl⟩
          | ok v =>
              cases hv : op.decidedBy v with
              | true =>
                  rw [Machine.eval_logical_of_decided e' hl hv] at he
                  cases he
              | false =>
                  rw [Machine.eval_logical_of_undecided e' hl hv] at he
                  exact .inr ⟨1, _, m₁, .undecided e' hl hv, ending_expression_of_error he⟩
  | var z l =>
      obtain ⟨v, -, found⟩ | ⟨-, absent⟩ := Machine.eval_var_cases z l m
      · cases he.symm.trans found
      · cases he.symm.trans absent
        exact .inl (.uses (uses_var absent))
  | assign z l e =>
      cases hv : m.eval e with
      | mk r m₁ =>
          cases r with
          | error x =>
              rw [Machine.eval_assign_of_error z l hv] at he
              cases he
              exact .inr ⟨0, _, m, .assigned z l e m, ending_expression_of_error hv⟩
          | ok v =>
              obtain ⟨env, -, found⟩ | ⟨-, absent⟩ := Machine.eval_assign_cases z l hv
              · cases he.symm.trans found
              · cases he.symm.trans absent
                exact .inl (.uses (uses_assign hv absent))

/-- A statement whose run fails enters a part whose run does. -/
theorem exists_enters_of_failed_statement {s : Stmt}
    (h : (statement s).ending limit m = .failed x) :
    ∃ i c m', Enters limit (statement s) m i c m' ∧ c.ending limit m' = .failed x := by
  rw [ending] at h
  cases s with
  | expression e | print e =>
      rw [Stmt.run] at h
      cases he : m.eval e with
      | mk r m₁ =>
          rw [he] at h
          cases r with
          | ok v => cases h
          | error x =>
              cases h
              exact ⟨0, _, m, by constructor, ending_expression_of_error he⟩
  | declare z init l =>
      cases init with
      | none => cases h
      | some e =>
          rw [Stmt.run] at h
          cases he : m.eval e with
          | mk r m₁ =>
              rw [he] at h
              cases r with
              | ok v => cases h
              | error x =>
                  cases h
                  exact ⟨0, _, m, .initializer z e l m, ending_expression_of_error he⟩
  | block body => exact ⟨0, _, m.push, .body body m, h⟩
  | ifThen e s =>
      rw [Stmt.run] at h
      cases he : m.eval e with
      | mk r m₁ =>
          rw [he] at h
          cases r with
          | error x =>
              cases h
              exact ⟨0, _, m, .ifCondition e s m, ending_expression_of_error he⟩
          | ok v =>
              cases hv : v.truthy with
              | true =>
                  simp only [hv, if_true] at h
                  exact ⟨1, _, m₁, .ifTrue s he hv, h⟩
              | false =>
                  simp [hv] at h
  | ifElse e s s' =>
      rw [Stmt.run] at h
      cases he : m.eval e with
      | mk r m₁ =>
          rw [he] at h
          cases r with
          | error x =>
              cases h
              exact ⟨0, _, m, .condition e s s' m, ending_expression_of_error he⟩
          | ok v =>
              cases hv : v.truthy with
              | true =>
                  simp only [hv, if_true] at h
                  exact ⟨1, _, m₁, .thenBranch s s' he hv, h⟩
              | false =>
                  simp only [hv, Bool.false_eq_true, if_false] at h
                  exact ⟨2, _, m₁, .elseBranch s s' he hv, h⟩
  | loop e s =>
      rw [Stmt.run] at h
      obtain ⟨n, m₁, turns, hn, ⟨m', he⟩ | ⟨v, m', he, hv, failed⟩⟩ := exists_turns_of_failed h
      · exact ⟨0, _, m₁, .loopCondition turns hn, ending_expression_of_error he⟩
      · exact ⟨1, _, m', .loopBody turns hn he hv, failed⟩

/-- A part whose run fails is itself what the error is due to, or enters a part whose run fails. -/
theorem exists_enters_of_failed {n : Node} (h : n.ending limit m = .failed x) :
    n.Raises m x ∨ ∃ i c m', Enters limit n m i c m' ∧ c.ending limit m' = .failed x := by
  cases n with
  | sequence body =>
      obtain ⟨i, s, m', hi, before, failed⟩ := exists_element_of_failed h
      exact .inr ⟨i, _, m', .element hi before, failed⟩
  | statement s => exact .inr (exists_enters_of_failed_statement h)
  | expression e => exact exists_enters_of_failed_expression h

/-- A run that fails has come to a part that the error is due to. -/
theorem exists_reaches_of_failed (n : Node) {m : Machine} (h : n.ending limit m = .failed x) :
    ∃ way k m', Reaches limit n m way k m' ∧ k.Raises m' x := by
  obtain raises | ⟨i, c, m₁, enters, failed⟩ := exists_enters_of_failed h
  · exact ⟨[], n, m, .here n m, raises⟩
  · have smaller : sizeOf c < sizeOf n := sizeOf_child (List.mem_of_getElem? enters.child)
    obtain ⟨way, k, m', reaches, raises⟩ := exists_reaches_of_failed c failed
    exact ⟨i :: way, k, m', .inside enters reaches, raises⟩
termination_by sizeOf n

/-- A run that fails for want of a variable has come to an occurrence of it that was at fault. -/
theorem exists_reaches_of_undefined (n : Node) {m : Machine} {y : String} {line : Nat}
    (h : n.ending limit m = .failed ⟨.undefinedVariable y, line⟩) :
    ∃ way k m', Reaches limit n m way k m' ∧
      k.Uses m' y line (.error ⟨.undefinedVariable y, line⟩) := by
  obtain ⟨way, k, m', reaches, raises⟩ := exists_reaches_of_failed n h
  exact ⟨way, k, m', reaches, raises.uses_of_undefined⟩

end fails

end Node
end Lox
