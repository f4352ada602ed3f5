import Lox.Execution.Expression
import Lox.Proofs.Execution.Rules

/-!
Expressions always come to a result, and the evaluator, which works on a store of linked scopes,
comes to the one that the rules derive over the stack that the store shows.
-/

namespace Lox

theorem Value.truthy_iff {v : Value} : v.truthy = true ↔ v.Truthy := by
  cases v with
  | bool b => cases b <;> simp [truthy, Truthy]
  | _ => simp [truthy, Truthy]

theorem Value.equals_iff {l r : Value} : l.equals r = true ↔ l.Same r := by
  constructor
  · intro h
    cases l <;> cases r <;> simp only [equals, Bool.false_eq_true, beq_iff_eq] at h
    case nil.nil => exact .nil
    case bool.bool a b => exact h ▸ .bool a
    case number.number x y => exact .number h
    case string.string s t => exact h ▸ .string s
  · rintro (_ | b | h | s)
    · rfl
    · exact beq_self_eq_true b
    · exact h
    · exact beq_self_eq_true s

theorem LogicalOp.decidedBy_iff {op : LogicalOp} {v : Value} :
    op.decidedBy v = true ↔ op.Decides v := by
  cases op with
  | and => rw [decidedBy, Bool.not_eq_true', ← Bool.not_eq_true, Value.truthy_iff, Decides]
  | or => exact Value.truthy_iff

theorem UnaryOp.gives_apply (op : UnaryOp) (line : Nat) (v : Value) :
    op.Gives line v (op.apply line v) := by
  cases op with
  | negate =>
      cases v with
      | number x => exact .negate x
      | _ => exact .negateFails (by simp)
  | not =>
      rw [apply]
      cases hv : v.truthy with
      | true => exact .notTruthy (Value.truthy_iff.1 hv)
      | false => exact .notFalsy fun h => by simp [Value.truthy_iff.2 h] at hv

theorem UnaryOp.Gives.apply_eq {op : UnaryOp} {line : Nat} {v : Value}
    {r : Except RuntimeError Value} (h : op.Gives line v r) : op.apply line v = r := by
  cases h with
  | negate => rfl
  | negateFails h =>
      cases v with
      | number x => exact absurd rfl (h x)
      | _ => rfl
  | notTruthy h => simp [apply, Value.truthy_iff.2 h]
  | notFalsy h =>
      rw [← Value.truthy_iff, Bool.not_eq_true] at h
      simp [apply, h]

theorem BinaryOp.gives_apply (op : BinaryOp) (line : Nat) (l r : Value) :
    op.Gives line l r (op.apply line l r) := by
  cases op
  case equal =>
    rw [apply]
    cases h : l.equals r with
    | true => exact .equal (Value.equals_iff.1 h)
    | false => exact .equalFalse fun same => by simp [Value.equals_iff.2 same] at h
  case notEqual =>
    rw [apply]
    cases h : l.equals r with
    | true => exact .notEqualFalse (Value.equals_iff.1 h)
    | false => exact .notEqual fun same => by simp [Value.equals_iff.2 same] at h
  case add =>
    cases l <;> cases r
    case number.number x y => exact .add x y
    case string.string s t => exact .join s t
    all_goals exact .addFails (by simp) (by simp)
  all_goals
    cases l <;> cases r
    case number.number x y => constructor
    all_goals exact .fails (by decide) (by decide) (by decide) (by simp)

theorem BinaryOp.Gives.apply_eq {op : BinaryOp} {line : Nat} {l r : Value}
    {res : Except RuntimeError Value} (h : op.Gives line l r res) : op.apply line l r = res := by
  cases h with
  | equal h => simp [apply, Value.equals_iff.2 h]
  | notEqualFalse h => simp [apply, Value.equals_iff.2 h]
  | equalFalse h | notEqual h =>
      rw [← Value.equals_iff, Bool.not_eq_true] at h
      simp [apply, h]
  | addFails numbers strings => cases l <;> cases r <;> simp_all [apply]
  | fails ha he hn numbers => cases op <;> cases l <;> cases r <;> simp_all [apply]
  | _ => rfl

namespace Expr

open Environment (Linked)

/-- The rules derive what the evaluator does with an expression. -/
theorem evaluates_eval (e : Expr) {env : Environment} (h : env.Linked) :
    (e.eval env).2.Linked ∧ e.Evaluates env.stack (e.eval env).1 (e.eval env).2.stack := by
  induction e generalizing env with
  | literal v => exact ⟨h, .literal v _⟩
  | grouping e ih =>
      obtain ⟨linked, inner⟩ := ih h
      exact ⟨linked, .grouping inner⟩
  | unary op line e ih =>
      obtain ⟨linked, operand⟩ := ih h
      rw [eval]
      cases he : e.eval env with
      | mk r env' =>
          rw [he] at linked operand
          cases r with
          | ok v => exact ⟨linked, .unary operand (op.gives_apply line v)⟩
          | error x => exact ⟨linked, .unaryFails operand⟩
  | binary op line e₁ e₂ ih₁ ih₂ =>
      obtain ⟨linked, left⟩ := ih₁ h
      rw [eval]
      cases he : e₁.eval env with
      | mk r env' =>
          rw [he] at linked left
          cases r with
          | ok v =>
              obtain ⟨linked', right⟩ := ih₂ linked
              dsimp only
              cases he' : e₂.eval env' with
              | mk r' env'' =>
                  rw [he'] at linked' right
                  cases r' with
                  | ok v' => exact ⟨linked', .binary left right (op.gives_apply line v v')⟩
                  | error x => exact ⟨linked', .binaryRightFails left right⟩
          | error x => exact ⟨linked, .binaryLeftFails left⟩
  | logical op e₁ e₂ ih₁ ih₂ =>
      obtain ⟨linked, left⟩ := ih₁ h
      rw [eval]
      cases he : e₁.eval env with
      | mk r env' =>
          rw [he] at linked left
          cases r with
          | ok v =>
              by_cases hd : op.decidedBy v = true
              · simp only [hd, if_true]
                exact ⟨linked, .decided left (LogicalOp.decidedBy_iff.1 hd)⟩
              · obtain ⟨linked', right⟩ := ih₂ linked
                simp only [hd]
                exact ⟨linked', .undecided left (mt LogicalOp.decidedBy_iff.2 hd) right⟩
          | error x => exact ⟨linked, .logicalFails left⟩
  | var name line =>
      rw [eval]
      have seen := h.lookup name
      cases hl : env.lookup name with
      | some v => exact ⟨h, .var (seen ▸ hl)⟩
      | none => exact ⟨h, .varUnbound (seen ▸ hl)⟩
  | assign name line e ih =>
      obtain ⟨linked, value⟩ := ih h
      rw [eval]
      cases he : e.eval env with
      | mk r env' =>
          rw [he] at linked value
          cases r with
          | ok v =>
              obtain ⟨linked', changed⟩ := linked.assign? name v
              dsimp only
              cases ha : env'.assign? name v with
              | some env'' =>
                  rw [ha] at changed
                  exact ⟨linked' env'' ha, .assign value changed.symm⟩
              | none =>
                  rw [ha] at changed
                  exact ⟨linked, .assignUnbound value changed.symm⟩
          | error x => exact ⟨linked, .assignFails value⟩

/-- The evaluator does with an expression what the rules derive. -/
theorem Evaluates.eval_eq {e : Expr} {σ σ' : Stack} {r : Except RuntimeError Value}
    (h : e.Evaluates σ r σ') {env : Environment} (linked : env.Linked) (hs : env.stack = σ) :
    ∃ env', e.eval env = (r, env') ∧ env'.Linked ∧ env'.stack = σ' := by
  induction h generalizing env with
  | literal v σ => exact ⟨env, rfl, linked, hs⟩
  | grouping _ ih => exact ih linked hs
  | unary _ hg ih =>
      obtain ⟨env', he, linked', hs'⟩ := ih linked hs
      exact ⟨env', by simp [eval, he, hg.apply_eq], linked', hs'⟩
  | unaryFails _ ih | logicalFails _ ih | binaryLeftFails _ ih | assignFails _ ih =>
      obtain ⟨env', he, linked', hs'⟩ := ih linked hs
      exact ⟨env', by simp [eval, he], linked', hs'⟩
  | binary _ _ hg ih₁ ih₂ =>
      obtain ⟨env₁, he₁, linked₁, hs₁⟩ := ih₁ linked hs
      obtain ⟨env₂, he₂, linked₂, hs₂⟩ := ih₂ linked₁ hs₁
      exact ⟨env₂, by simp [eval, he₁, he₂, hg.apply_eq], linked₂, hs₂⟩
  | binaryRightFails _ _ ih₁ ih₂ =>
      obtain ⟨env₁, he₁, linked₁, hs₁⟩ := ih₁ linked hs
      obtain ⟨env₂, he₂, linked₂, hs₂⟩ := ih₂ linked₁ hs₁
      exact ⟨env₂, by simp [eval, he₁, he₂], linked₂, hs₂⟩
  | decided _ hd ih =>
      obtain ⟨env', he, linked', hs'⟩ := ih linked hs
      exact ⟨env', by simp [eval, he, LogicalOp.decidedBy_iff.2 hd], linked', hs'⟩
  | undecided _ hd _ ih₁ ih₂ =>
      obtain ⟨env₁, he₁, linked₁, hs₁⟩ := ih₁ linked hs
      obtain ⟨env₂, he₂, linked₂, hs₂⟩ := ih₂ linked₁ hs₁
      rw [← LogicalOp.decidedBy_iff] at hd
      exact ⟨env₂, by simp [eval, he₁, he₂, hd], linked₂, hs₂⟩
  | @var name line σ v hl =>
      have seen : env.lookup name = some v := by rw [linked.lookup, hs, hl]
      exact ⟨env, by simp [eval, seen], linked, hs⟩
  | @varUnbound name line σ hl =>
      have unseen : env.lookup name = none := by rw [linked.lookup, hs, hl]
      exact ⟨env, by simp [eval, unseen], linked, hs⟩
  | @assign name line e σ σ₁ σ₂ v _ ha ih =>
      obtain ⟨env₁, he, linked₁, hs₁⟩ := ih linked hs
      obtain ⟨linked', changed⟩ := linked₁.assign? name v
      rw [hs₁, ha] at changed
      obtain ⟨env₂, found, hs₂⟩ := Option.map_eq_some_iff.1 changed
      exact ⟨env₂, by simp [eval, he, found], linked' env₂ found, hs₂⟩
  | @assignUnbound name line e σ σ₁ v _ ha ih =>
      obtain ⟨env₁, he, linked₁, hs₁⟩ := ih linked hs
      have changed := (linked₁.assign? name v).2
      rw [hs₁, ha] at changed
      have unbound := Option.map_eq_none_iff.1 changed
      exact ⟨env₁, by simp [eval, he, unbound], linked₁, hs₁⟩

end Expr

end Lox
