import Lox.Proofs.Execution.Visit
import Lox.Proofs.Phrase.Program

/-!
The expressions inside a program and its tokens. Every expression that is anywhere inside a program
without a fault is worded by some of the tokens, in a row; only the condition of a `for` loop that
has none is not among them.
-/

namespace Lox

def Expr.StandsIn (tokens : List Token) (e : Expr) : Prop :=
  ∃ front w back, tokens = front ++ w ++ back ∧ Wording w e

theorem Expr.Wording.standsIn {w : List Token} {e : Expr} (h : Wording w e) : StandsIn w e :=
  ⟨[], w, [], by simp, h⟩

theorem Expr.StandsIn.between {w : List Token} {e : Expr} (h : StandsIn w e) (u v : List Token) :
    StandsIn (u ++ w ++ v) e := by
  obtain ⟨front, x, back, rfl, worded⟩ := h
  exact ⟨u ++ front, x, back ++ v, by simp, worded⟩

theorem Expr.StandsIn.after {w : List Token} {e : Expr} (h : StandsIn w e) (u : List Token) :
    StandsIn (u ++ w) e := by
  simpa using h.between u []

theorem Expr.StandsIn.before {w : List Token} {e : Expr} (h : StandsIn w e) (v : List Token) :
    StandsIn (w ++ v) e :=
  h.between [] v

namespace Node

/-- A part is an expression, or the expression is somewhere inside it. -/
def Contains (n : Node) (e : Expr) : Prop := ∃ way, n.at? way = some (expression e)

section

variable {e e' : Expr} {s s' : Stmt} {body : List Stmt} {n : Node}

theorem contains_iff : n.Contains e ↔ n = expression e ∨ ∃ c ∈ n.children, c.Contains e := by
  constructor
  · rintro ⟨way, h⟩
    cases way with
    | nil => exact .inl (Option.some.inj h)
    | cons i way =>
        rw [at?, Option.bind_eq_some_iff] at h
        obtain ⟨c, hc, h⟩ := h
        exact .inr ⟨c, List.mem_of_getElem? hc, way, h⟩
  · rintro (rfl | ⟨c, hc, way, h⟩)
    · exact ⟨[], rfl⟩
    · obtain ⟨i, hi⟩ := List.mem_iff_getElem?.1 hc
      exact ⟨i :: way, by rw [at?, hi, Option.bind_some, h]⟩

theorem contains_sequence : (sequence body).Contains e ↔ ∃ s ∈ body, (statement s).Contains e := by
  simp [contains_iff (n := sequence body), children]

theorem contains_statement :
    (statement s).Contains e ↔ ∃ c ∈ (statement s).children, c.Contains e := by
  simp [contains_iff (n := statement s)]

theorem contains_block :
    (statement (.block body)).Contains e ↔ ∃ s ∈ body, (statement s).Contains e := by
  simp [contains_statement, children, contains_sequence]

theorem contains_evaluated :
    (statement (.expression e')).Contains e ↔ (expression e').Contains e := by
  simp [contains_statement, children]

theorem contains_loop :
    (statement (.loop e' s)).Contains e ↔
      (expression e').Contains e ∨ (statement s).Contains e := by
  simp [contains_statement, children]

/-- The expressions inside a `for` loop are those of its clauses and of its body. -/
theorem contains_forLoop {first : Option Stmt} {condition increment : Option Expr} :
    (statement (.forLoop first condition increment s)).Contains e ↔
      (∃ s' ∈ first, (statement s').Contains e) ∨
        (expression (condition.getD (.literal (.bool true)))).Contains e ∨
        (statement s).Contains e ∨ ∃ e' ∈ increment, (expression e').Contains e := by
  cases first <;> cases increment <;>
    simp [Stmt.forLoop, contains_loop, contains_block, contains_evaluated]

end

/-- What is inside an expression stands among its tokens. -/
theorem standsIn_of_expression {w : List Token} {e e' : Expr} (h : Expr.Wording w e)
    (inside : (expression e).Contains e') : Expr.StandsIn w e' := by
  induction h with
  | literal h =>
      obtain same | ⟨_, none, -⟩ := contains_iff.1 inside
      · cases same
        exact (Expr.Wording.literal h).standsIn
      · cases none
  | var h =>
      obtain same | ⟨_, none, -⟩ := contains_iff.1 inside
      · cases same
        exact (Expr.Wording.var h).standsIn
      · cases none
  | @grouping l r w e hl inner hr ih =>
      obtain same | ⟨c, hc, deeper⟩ := contains_iff.1 inside
      · cases same
        exact (Expr.Wording.grouping hl inner hr).standsIn
      · obtain rfl := List.mem_singleton.1 hc
        exact (ih deeper).between [l] [r]
  | @unary t op w e ht level operand ih =>
      obtain same | ⟨c, hc, deeper⟩ := contains_iff.1 inside
      · cases same
        exact (Expr.Wording.unary ht level operand).standsIn
      · obtain rfl := List.mem_singleton.1 hc
        exact (ih deeper).after [t]
  | @joined t c u v l r ht hl hr left right ihl ihr =>
      have parts : (expression (c.join t.line l r)).children = [expression l, expression r] := by
        cases c <;> rfl
      obtain same | ⟨c', hc, deeper⟩ := contains_iff.1 inside
      · cases same
        exact (Expr.Wording.joined ht hl hr left right).standsIn
      · rw [parts, List.mem_pair] at hc
        obtain rfl | rfl := hc
        · exact (ihl deeper).before (t :: v)
        · simpa using (ihr deeper).after (u ++ [t])
  | @assign n q w e hn hq value ih =>
      obtain same | ⟨c, hc, deeper⟩ := contains_iff.1 inside
      · cases same
        exact (Expr.Wording.assign hn hq value).standsIn
      · obtain rfl := List.mem_singleton.1 hc
        exact (ih deeper).after [n, q]

/-- Among some tokens stand all expressions inside a part, those of `for` loops without a condition
apart. -/
def StandsIn (tokens : List Token) (n : Node) : Prop :=
  ∀ e, n.Contains e → e = .literal (.bool true) ∨ e.StandsIn tokens

section

variable {w u v : List Token} {e : Expr} {n : Node}

theorem StandsIn.between (h : StandsIn w n) (u v : List Token) : StandsIn (u ++ w ++ v) n :=
  fun e inside => (h e inside).imp_right (·.between u v)

theorem standsIn_expression (h : Expr.Wording w e) : StandsIn w (expression e) :=
  fun _ inside => .inr (standsIn_of_expression h inside)

theorem standsIn_statement {s : Stmt} (h : ∀ c ∈ (statement s).children, StandsIn w c) :
    StandsIn w (statement s) := by
  intro e inside
  obtain ⟨c, hc, deeper⟩ := contains_statement.1 inside
  exact h c hc e deeper

end

theorem standsIn_declaring {w : List Token} {s : Stmt} (h : Stmt.Declaring w s) :
    StandsIn w (statement s) := by
  refine standsIn_statement fun c hc => ?_
  cases h with
  | bare => cases hc
  | @initialized v n q t w e hv hn hq value ht =>
      obtain rfl := List.mem_singleton.1 hc
      exact (standsIn_expression value).between [v, n, q] [t]

theorem standsIn_evaluating {w : List Token} {s : Stmt} (h : Stmt.Evaluating w s) :
    StandsIn w (statement s) := by
  refine standsIn_statement fun c hc => ?_
  obtain @⟨t, w, e, value, ht⟩ := h
  obtain rfl := List.mem_singleton.1 hc
  exact (standsIn_expression value).between [] [t]

theorem standsIn_starting {w : List Token} {s : Stmt} (h : Stmt.Starting w (some s)) :
    StandsIn w (statement s) := by
  cases h with
  | declaring h => exact standsIn_declaring h
  | evaluating h => exact standsIn_evaluating h

theorem standsIn_clause {w : List Token} {e : Expr} (h : Stmt.Clause w (some e)) :
    StandsIn w (expression e) := by
  cases h with
  | present h => exact standsIn_expression h

/-- What is inside a statement stands among its tokens. -/
theorem standsIn_wording {w : List Token} {s : Stmt} {tail : Bool} (h : Stmt.Wording w s tail) :
    StandsIn w (statement s) := by
  induction h with
  | declaring h => exact standsIn_declaring h
  | evaluating h => exact standsIn_evaluating h
  | @print p t w e hp value ht =>
      refine standsIn_statement fun c hc => ?_
      obtain rfl := List.mem_singleton.1 hc
      exact (standsIn_expression value).between [p] [t]
  | @block l r parts hl body hr ih =>
      intro e inside
      obtain ⟨s, hs, deeper⟩ := contains_block.1 inside
      obtain ⟨q, hq, rfl⟩ := List.mem_map.1 hs
      obtain ⟨front, back, rfl⟩ := List.append_of_mem hq
      have placed := (ih q hq).between (l :: front.flatMap (·.1)) (back.flatMap (·.1) ++ [r])
      simpa using placed e deeper
  | @ifThen f l r w u e s tail hf hl condition hr hs thenBranch ih
  | @loop f l r w u e s tail hf hl condition hr hs thenBranch ih =>
      refine standsIn_statement fun c hc => ?_
      obtain rfl | rfl := List.mem_pair.1 hc
      · simpa using (standsIn_expression condition).between [f, l] (r :: u)
      · simpa using ih.between (f :: l :: w ++ [r]) []
  | @ifElse f l r o w u v e s s' tail hf hl condition hr hs _ ho hs' _ ih ih' =>
      refine standsIn_statement fun c hc => ?_
      simp only [children, List.mem_cons, List.not_mem_nil, or_false] at hc
      obtain rfl | rfl | rfl := hc
      · simpa using (standsIn_expression condition).between [f, l] (r :: u ++ o :: v)
      · simpa using ih.between (f :: l :: w ++ [r]) (o :: v)
      · simpa using ih'.between (f :: l :: w ++ r :: u ++ [o]) []
  | @forLoop f l t r w₁ w₂ w₃ u first condition increment s tail hf hl start test ht step hr hs _
      ih =>
      intro e inside
      obtain ⟨s', rfl, deeper⟩ | deeper | deeper | ⟨e', rfl, deeper⟩ := contains_forLoop.1 inside
      · have placed := (standsIn_starting start).between [f, l] (w₂ ++ t :: w₃ ++ r :: u)
        simpa using placed e deeper
      · cases condition with
        | none =>
            obtain same | ⟨_, none, -⟩ := contains_iff.1 deeper
            · cases same
              exact .inl rfl
            · cases none
        | some e' =>
            have placed := (standsIn_clause test).between (f :: l :: w₁) (t :: w₃ ++ r :: u)
            simpa using placed e deeper
      · have placed := ih.between (f :: l :: w₁ ++ w₂ ++ t :: w₃ ++ [r]) []
        simpa using placed e deeper
      · have placed := (standsIn_clause step).between (f :: l :: w₁ ++ w₂ ++ [t]) (r :: u)
        simpa using placed e deeper

/-- What is inside a program without a fault stands among its tokens. -/
theorem standsIn_program {tokens : List Token} (clean : (Program.ofTokens tokens).faults = []) :
    StandsIn (Program.body tokens) (sequence (Program.ofTokens tokens).statements) := by
  intro e inside
  obtain ⟨parts, cover, statements, worded⟩ := Program.wording_of_faults_nil clean
  obtain ⟨s, hs, deeper⟩ := contains_sequence.1 inside
  rw [statements] at hs
  obtain ⟨q, hq, rfl⟩ := List.mem_map.1 hs
  obtain ⟨front, back, rfl⟩ := List.append_of_mem hq
  have placed := (standsIn_wording (worded q hq)).between (front.flatMap (·.1))
    (back.flatMap (·.1))
  simpa [cover] using placed e deeper

end Node

end Lox
