import Lox.Execution.Operation
import Lox.Proofs.Scope.Stack

/-!
What programs mean, as rules over a plain stack of finite maps. The rules derive what an expression
or a statement comes to, what it prints, and the stack afterwards; where no rule applies there is no
end. They do not refer to the evaluator.
-/

namespace Lox

def Value.Truthy (v : Value) : Prop := v ≠ .nil ∧ v ≠ .bool false

/-- Two values that are equal to programs. Numbers are compared as numbers. -/
inductive Value.Same : Value → Value → Prop
  | nil : Same .nil .nil
  | bool (b : Bool) : Same (.bool b) (.bool b)
  | number {x y : Float} (h : (x == y) = true) : Same (.number x) (.number y)
  | string (s : String) : Same (.string s) (.string s)

inductive UnaryOp.Gives (line : Nat) : UnaryOp → Value → Except RuntimeError Value → Prop
  | negate (x : Float) : Gives line .negate (.number x) (.ok (.number (-x)))
  | negateFails {v : Value} (h : ∀ x, v ≠ .number x) :
      Gives line .negate v (.error ⟨.operandNotNumber, line⟩)
  | notTruthy {v : Value} (h : v.Truthy) : Gives line .not v (.ok (.bool false))
  | notFalsy {v : Value} (h : ¬v.Truthy) : Gives line .not v (.ok (.bool true))

inductive BinaryOp.Gives (line : Nat) :
    BinaryOp → Value → Value → Except RuntimeError Value → Prop
  | equal {l r : Value} (h : l.Same r) : Gives line .equal l r (.ok (.bool true))
  | equalFalse {l r : Value} (h : ¬l.Same r) : Gives line .equal l r (.ok (.bool false))
  | notEqual {l r : Value} (h : ¬l.Same r) : Gives line .notEqual l r (.ok (.bool true))
  | notEqualFalse {l r : Value} (h : l.Same r) : Gives line .notEqual l r (.ok (.bool false))
  | add (x y : Float) : Gives line .add (.number x) (.number y) (.ok (.number (x + y)))
  | join (s t : String) : Gives line .add (.string s) (.string t) (.ok (.string (s ++ t)))
  | addFails {l r : Value} (numbers : ∀ x y, ¬(l = .number x ∧ r = .number y))
      (strings : ∀ s t, ¬(l = .string s ∧ r = .string t)) :
      Gives line .add l r (.error ⟨.operandsNotNumbersOrStrings, line⟩)
  | subtract (x y : Float) : Gives line .subtract (.number x) (.number y) (.ok (.number (x - y)))
  | multiply (x y : Float) : Gives line .multiply (.number x) (.number y) (.ok (.number (x * y)))
  | divide (x y : Float) : Gives line .divide (.number x) (.number y) (.ok (.number (x / y)))
  | less (x y : Float) : Gives line .less (.number x) (.number y) (.ok (.bool (x < y)))
  | lessEqual (x y : Float) : Gives line .lessEqual (.number x) (.number y) (.ok (.bool (x ≤ y)))
  | greater (x y : Float) : Gives line .greater (.number x) (.number y) (.ok (.bool (x > y)))
  | greaterEqual (x y : Float) :
      Gives line .greaterEqual (.number x) (.number y) (.ok (.bool (x ≥ y)))
  | fails {op : BinaryOp} {l r : Value} (ha : op ≠ .add) (he : op ≠ .equal) (hn : op ≠ .notEqual)
      (numbers : ∀ x y, ¬(l = .number x ∧ r = .number y)) :
      Gives line op l r (.error ⟨.operandsNotNumbers, line⟩)

def LogicalOp.Decides : LogicalOp → Value → Prop
  | .and, v => ¬v.Truthy
  | .or, v => v.Truthy

/-- What an expression comes to on a stack, and the stack afterwards. -/
inductive Expr.Evaluates : Expr → Stack → Except RuntimeError Value → Stack → Prop
  | literal (v : Value) (σ : Stack) : Evaluates (.literal v) σ (.ok v) σ
  | grouping {e : Expr} {σ σ' : Stack} {r : Except RuntimeError Value} (h : Evaluates e σ r σ') :
      Evaluates (.grouping e) σ r σ'
  | unary {op : UnaryOp} {line : Nat} {e : Expr} {σ σ' : Stack} {v : Value}
      {r : Except RuntimeError Value} (operand : Evaluates e σ (.ok v) σ') (h : op.Gives line v r) :
      Evaluates (.unary op line e) σ r σ'
  | unaryFails {op : UnaryOp} {line : Nat} {e : Expr} {σ σ' : Stack} {x : RuntimeError}
      (operand : Evaluates e σ (.error x) σ') : Evaluates (.unary op line e) σ (.error x) σ'
  | binary {op : BinaryOp} {line : Nat} {e₁ e₂ : Expr} {σ σ₁ σ₂ : Stack} {v₁ v₂ : Value}
      {r : Except RuntimeError Value} (left : Evaluates e₁ σ (.ok v₁) σ₁)
      (right : Evaluates e₂ σ₁ (.ok v₂) σ₂) (h : op.Gives line v₁ v₂ r) :
      Evaluates (.binary op line e₁ e₂) σ r σ₂
  | binaryLeftFails {op : BinaryOp} {line : Nat} {e₁ e₂ : Expr} {σ σ₁ : Stack} {x : RuntimeError}
      (left : Evaluates e₁ σ (.error x) σ₁) : Evaluates (.binary op line e₁ e₂) σ (.error x) σ₁
  | binaryRightFails {op : BinaryOp} {line : Nat} {e₁ e₂ : Expr} {σ σ₁ σ₂ : Stack} {v : Value}
      {x : RuntimeError} (left : Evaluates e₁ σ (.ok v) σ₁)
      (right : Evaluates e₂ σ₁ (.error x) σ₂) : Evaluates (.binary op line e₁ e₂) σ (.error x) σ₂
  | decided {op : LogicalOp} {e₁ e₂ : Expr} {σ σ₁ : Stack} {v : Value}
      (left : Evaluates e₁ σ (.ok v) σ₁) (h : op.Decides v) :
      Evaluates (.logical op e₁ e₂) σ (.ok v) σ₁
  | undecided {op : LogicalOp} {e₁ e₂ : Expr} {σ σ₁ σ₂ : Stack} {v : Value}
      {r : Except RuntimeError Value} (left : Evaluates e₁ σ (.ok v) σ₁) (h : ¬op.Decides v)
      (right : Evaluates e₂ σ₁ r σ₂) : Evaluates (.logical op e₁ e₂) σ r σ₂
  | logicalFails {op : LogicalOp} {e₁ e₂ : Expr} {σ σ₁ : Stack} {x : RuntimeError}
      (left : Evaluates e₁ σ (.error x) σ₁) : Evaluates (.logical op e₁ e₂) σ (.error x) σ₁
  | var {name : String} {line : Nat} {σ : Stack} {v : Value} (h : σ.lookup name = some v) :
      Evaluates (.var name line) σ (.ok v) σ
  | varUnbound {name : String} {line : Nat} {σ : Stack} (h : σ.lookup name = none) :
      Evaluates (.var name line) σ (.error ⟨.undefinedVariable name, line⟩) σ
  | assign {name : String} {line : Nat} {e : Expr} {σ σ₁ σ₂ : Stack} {v : Value}
      (value : Evaluates e σ (.ok v) σ₁) (h : σ₁.assign? name v = some σ₂) :
      Evaluates (.assign name line e) σ (.ok v) σ₂
  | assignUnbound {name : String} {line : Nat} {e : Expr} {σ σ₁ : Stack} {v : Value}
      (value : Evaluates e σ (.ok v) σ₁) (h : σ₁.assign? name v = none) :
      Evaluates (.assign name line e) σ (.error ⟨.undefinedVariable name, line⟩) σ₁
  | assignFails {name : String} {line : Nat} {e : Expr} {σ σ₁ : Stack} {x : RuntimeError}
      (value : Evaluates e σ (.error x) σ₁) : Evaluates (.assign name line e) σ (.error x) σ₁

inductive Passage
  | one (s : Stmt)
  | all (body : List Stmt)

/-- How a passage ends on a stack, what it prints, and the stack afterwards. -/
inductive Passage.Executes : Passage → Stack → Except RuntimeError Unit → String → Stack → Prop
  | expression {e : Expr} {σ σ' : Stack} {v : Value} (h : e.Evaluates σ (.ok v) σ') :
      Executes (.one (.expression e)) σ (.ok ()) "" σ'
  | expressionFails {e : Expr} {σ σ' : Stack} {x : RuntimeError}
      (h : e.Evaluates σ (.error x) σ') : Executes (.one (.expression e)) σ (.error x) "" σ'
  | print {e : Expr} {σ σ' : Stack} {v : Value} (h : e.Evaluates σ (.ok v) σ') :
      Executes (.one (.print e)) σ (.ok ()) (v.text ++ "\n") σ'
  | printFails {e : Expr} {σ σ' : Stack} {x : RuntimeError} (h : e.Evaluates σ (.error x) σ') :
      Executes (.one (.print e)) σ (.error x) "" σ'
  | declareNil (name : String) (line : Nat) (f : Frame) (σ : Stack) :
      Executes (.one (.declare name none line)) (f :: σ) (.ok ()) "" (f.insert name .nil :: σ)
  | declare {name : String} {line : Nat} {e : Expr} {σ σ' : Stack} {f : Frame} {v : Value}
      (h : e.Evaluates σ (.ok v) (f :: σ')) :
      Executes (.one (.declare name (some e) line)) σ (.ok ()) "" (f.insert name v :: σ')
  | declareFails {name : String} {line : Nat} {e : Expr} {σ σ' : Stack} {x : RuntimeError}
      (h : e.Evaluates σ (.error x) σ') :
      Executes (.one (.declare name (some e) line)) σ (.error x) "" σ'
  | block {body : List Stmt} {σ σ' : Stack} {f : Frame} {r : Except RuntimeError Unit} {o : String}
      (h : Executes (.all body) (∅ :: σ) r o (f :: σ')) : Executes (.one (.block body)) σ r o σ'
  | ifThen {e : Expr} {s : Stmt} {σ σ₁ σ₂ : Stack} {v : Value} {r : Except RuntimeError Unit}
      {o : String} (condition : e.Evaluates σ (.ok v) σ₁) (hv : v.Truthy)
      (h : Executes (.one s) σ₁ r o σ₂) : Executes (.one (.ifThen e s)) σ r o σ₂
  | ifSkipped {e : Expr} {s : Stmt} {σ σ₁ : Stack} {v : Value}
      (condition : e.Evaluates σ (.ok v) σ₁) (hv : ¬v.Truthy) :
      Executes (.one (.ifThen e s)) σ (.ok ()) "" σ₁
  | ifFails {e : Expr} {s : Stmt} {σ σ₁ : Stack} {x : RuntimeError}
      (condition : e.Evaluates σ (.error x) σ₁) : Executes (.one (.ifThen e s)) σ (.error x) "" σ₁
  | ifElse {e : Expr} {s s' : Stmt} {σ σ₁ σ₂ : Stack} {v : Value} {r : Except RuntimeError Unit}
      {o : String} (condition : e.Evaluates σ (.ok v) σ₁) (hv : v.Truthy)
      (h : Executes (.one s) σ₁ r o σ₂) : Executes (.one (.ifElse e s s')) σ r o σ₂
  | elseBranch {e : Expr} {s s' : Stmt} {σ σ₁ σ₂ : Stack} {v : Value}
      {r : Except RuntimeError Unit} {o : String} (condition : e.Evaluates σ (.ok v) σ₁)
      (hv : ¬v.Truthy) (h : Executes (.one s') σ₁ r o σ₂) :
      Executes (.one (.ifElse e s s')) σ r o σ₂
  | ifElseFails {e : Expr} {s s' : Stmt} {σ σ₁ : Stack} {x : RuntimeError}
      (condition : e.Evaluates σ (.error x) σ₁) :
      Executes (.one (.ifElse e s s')) σ (.error x) "" σ₁
  | loopEnds {e : Expr} {s : Stmt} {σ σ₁ : Stack} {v : Value}
      (condition : e.Evaluates σ (.ok v) σ₁) (hv : ¬v.Truthy) :
      Executes (.one (.loop e s)) σ (.ok ()) "" σ₁
  | loopTurn {e : Expr} {s : Stmt} {σ σ₁ σ₂ σ₃ : Stack} {v : Value}
      {r : Except RuntimeError Unit} {o o' : String} (condition : e.Evaluates σ (.ok v) σ₁)
      (hv : v.Truthy) (turn : Executes (.one s) σ₁ (.ok ()) o σ₂)
      (h : Executes (.one (.loop e s)) σ₂ r o' σ₃) :
      Executes (.one (.loop e s)) σ r (o ++ o') σ₃
  | loopBodyFails {e : Expr} {s : Stmt} {σ σ₁ σ₂ : Stack} {v : Value} {x : RuntimeError}
      {o : String} (condition : e.Evaluates σ (.ok v) σ₁) (hv : v.Truthy)
      (turn : Executes (.one s) σ₁ (.error x) o σ₂) :
      Executes (.one (.loop e s)) σ (.error x) o σ₂
  | loopFails {e : Expr} {s : Stmt} {σ σ₁ : Stack} {x : RuntimeError}
      (condition : e.Evaluates σ (.error x) σ₁) : Executes (.one (.loop e s)) σ (.error x) "" σ₁
  | nil (σ : Stack) : Executes (.all []) σ (.ok ()) "" σ
  | cons {s : Stmt} {rest : List Stmt} {σ σ₁ σ₂ : Stack} {r : Except RuntimeError Unit}
      {o o' : String} (first : Executes (.one s) σ (.ok ()) o σ₁)
      (h : Executes (.all rest) σ₁ r o' σ₂) : Executes (.all (s :: rest)) σ r (o ++ o') σ₂
  | consFails {s : Stmt} {rest : List Stmt} {σ σ₁ : Stack} {x : RuntimeError} {o : String}
      (first : Executes (.one s) σ (.error x) o σ₁) : Executes (.all (s :: rest)) σ (.error x) o σ₁

theorem Stack.length_assign? {name : String} {v : Value} {σ σ' : Stack}
    (h : σ.assign? name v = some σ') : σ'.length = σ.length := by
  induction σ generalizing σ' with
  | nil => cases h
  | cons f rest ih =>
      rw [assign?] at h
      split at h
      · cases h
        rfl
      · obtain ⟨rest', hr, rfl⟩ := Option.map_eq_some_iff.1 h
        rw [List.length_cons, List.length_cons, ih hr]

theorem Expr.Evaluates.length_eq {e : Expr} {σ σ' : Stack} {r : Except RuntimeError Value}
    (h : e.Evaluates σ r σ') : σ'.length = σ.length := by
  induction h with
  | literal | var | varUnbound => rfl
  | grouping _ ih | unary _ _ ih | unaryFails _ ih | binaryLeftFails _ ih | decided _ _ ih
  | logicalFails _ ih | assignUnbound _ _ ih | assignFails _ ih => exact ih
  | binary _ _ _ ihl ihr | binaryRightFails _ _ ihl ihr => exact ihr.trans ihl
  | undecided _ _ _ ihl ihr => exact ihr.trans ihl
  | assign _ h ih => exact (Stack.length_assign? h).trans ih

/-- A passage leaves as many frames as it finds. -/
theorem Passage.Executes.length_eq {p : Passage} {σ σ' : Stack} {r : Except RuntimeError Unit}
    {o : String} (h : p.Executes σ r o σ') : σ'.length = σ.length := by
  induction h with
  | expression h | expressionFails h | print h | printFails h | declareFails h => exact h.length_eq
  | declareNil | nil => rfl
  | declare h => exact h.length_eq
  | block _ ih => exact Nat.succ.inj ih
  | ifThen condition _ _ ih | ifElse condition _ _ ih | elseBranch condition _ _ ih
  | loopBodyFails condition _ _ ih => exact ih.trans condition.length_eq
  | ifSkipped condition | ifFails condition | ifElseFails condition | loopEnds condition
  | loopFails condition => exact condition.length_eq
  | loopTurn condition _ _ _ iht ihr => exact ihr.trans (iht.trans condition.length_eq)
  | cons _ _ ihf ihr => exact ihr.trans ihf
  | consFails _ ih => exact ih

/-- What is executed on one frame more leaves that frame, in front of a stack of the old size. -/
theorem Passage.Executes.exists_cons {p : Passage} {f : Frame} {σ σ' : Stack}
    {r : Except RuntimeError Unit} {o : String} (h : p.Executes (f :: σ) r o σ') (hσ : σ ≠ []) :
    ∃ f' σ'', σ' = f' :: σ'' ∧ σ'' ≠ [] := by
  have size := h.length_eq
  cases σ' with
  | nil => cases size
  | cons f' σ'' =>
      refine ⟨f', σ'', rfl, ?_⟩
      rintro rfl
      exact hσ (List.length_eq_zero_iff.1 (Nat.succ.inj size).symm)

end Lox
