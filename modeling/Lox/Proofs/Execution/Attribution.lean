import Lox.Proofs.Lexical.Scan
import Lox.Proofs.Phrase.Inside
import Lox.Proofs.Phrase.Yield
import Lox.Proofs.Session.Reachable

/-!
What the error of a run is due to. It is due to an expression of the program that the run has come
to: a minus or an operator whose operands have values that it does not work on, or a name that is
not bound. The token of that operator or name stands in the program, on the line that is reported,
and no statement after the one that failed has had an effect.
-/

namespace Lox

def BinaryOp.isNumeric : BinaryOp → Bool
  | .subtract | .multiply | .divide | .less | .lessEqual | .greater | .greaterEqual => true
  | .add | .equal | .notEqual => false

/-- A problem can come up at an expression that stands among some tokens, and is reported on the
line of one of them: a minus in front of an operand, an operator between two, or a name. -/
inductive RuntimeProblem.ArisesAt (tokens : List Token) : RuntimeProblem → Token → Expr → Prop
  | negation {front w back : List Token} {t : Token} {e : Expr}
      (cover : tokens = front ++ t :: w ++ back) (ht : t.kind = .minus)
      (operand : Expr.Wording w e) : ArisesAt tokens .operandNotNumber t (.unary .negate t.line e)
  | sum {front u v back : List Token} {t : Token} {l r : Expr}
      (cover : tokens = front ++ (u ++ t :: v) ++ back) (ht : t.kind = .plus)
      (left : Expr.Wording u l) (right : Expr.Wording v r) :
      ArisesAt tokens .operandsNotNumbersOrStrings t (.binary .add t.line l r)
  | calculation {front u v back : List Token} {t : Token} {op : BinaryOp} {l r : Expr}
      (numeric : op.isNumeric = true) (cover : tokens = front ++ (u ++ t :: v) ++ back)
      (ht : t.kind = op.kind) (left : Expr.Wording u l) (right : Expr.Wording v r) :
      ArisesAt tokens .operandsNotNumbers t (.binary op t.line l r)
  | value {front back : List Token} {t : Token} (cover : tokens = front ++ t :: back)
      (ht : t.kind = .identifier) :
      ArisesAt tokens (.undefinedVariable t.lexeme) t (.var t.lexeme t.line)
  | target {front w back : List Token} {t q : Token} {e : Expr}
      (cover : tokens = front ++ t :: q :: w ++ back) (ht : t.kind = .identifier)
      (hq : q.kind = .equal) (assigned : Expr.Wording w e) :
      ArisesAt tokens (.undefinedVariable t.lexeme) t (.assign t.lexeme t.line e)

namespace Expr

variable {w : List Token} {e l r : Expr} {line : Nat}

theorem Wording.of_unary {op : UnaryOp} (h : Wording w (.unary op line e)) :
    ∃ t u, w = t :: u ∧ t.kind = op.kind ∧ t.line = line ∧ Wording u e := by
  generalize hj : Expr.unary op line e = j at h
  cases h with
  | unary ht _ operand =>
      cases hj
      exact ⟨_, _, rfl, UnaryOp.ofKind?_eq_some_iff.1 ht, rfl, operand⟩
  | @joined _ c => cases c <;> cases hj
  | _ => cases hj

theorem Wording.of_binary {op : BinaryOp} (h : Wording w (.binary op line l r)) :
    ∃ u t v, w = u ++ t :: v ∧ t.kind = op.kind ∧ t.line = line ∧ Wording u l ∧ Wording v r := by
  generalize hj : Expr.binary op line l r = j at h
  cases h with
  | @joined t c u v l r ht _ _ left right =>
      cases c with
      | logical => cases hj
      | binary op =>
          cases hj
          have leaf : t.kind = ((Connective.binary op).leaf t.line).kind :=
            Connective.kind_leaf.1 ht
          exact ⟨u, t, v, rfl, leaf, rfl, left, right⟩
  | _ => cases hj

theorem Wording.of_assign {name : String} (h : Wording w (.assign name line e)) :
    ∃ t q u, w = t :: q :: u ∧ t.kind = .identifier ∧ t.lexeme = name ∧ t.line = line ∧
      q.kind = .equal ∧ Wording u e := by
  generalize hj : Expr.assign name line e = j at h
  cases h with
  | assign hn hq value =>
      cases hj
      exact ⟨_, _, _, rfl, hn, rfl, rfl, hq, value⟩
  | @joined _ c => cases c <;> cases hj
  | _ => cases hj

end Expr

/-- A part that an error is due to is an expression, and if that stands among some tokens, one of
them is on the line of the error. -/
theorem Node.Raises.exists_arisesAt {n : Node} {m : Machine} {x : RuntimeError}
    (h : n.Raises m x) : ∃ e, n = .expression e ∧ ∀ tokens, e.StandsIn tokens →
      ∃ t, x.problem.ArisesAt tokens t e ∧ t.line = x.line := by
  cases h with
  | @unary op line e m m₁ v x operand given =>
      refine ⟨_, rfl, fun tokens ⟨front, w, back, cover, worded⟩ => ?_⟩
      obtain ⟨t, u, rfl, ht, rfl, inner⟩ := worded.of_unary
      cases given with
      | negateFails => exact ⟨t, .negation cover ht inner, rfl⟩
  | @binary op line l r m m₁ m₂ v w x left right given =>
      refine ⟨_, rfl, fun tokens ⟨front, w, back, cover, worded⟩ => ?_⟩
      obtain ⟨u, t, v, rfl, ht, rfl, first, second⟩ := worded.of_binary
      cases given with
      | addFails => exact ⟨t, .sum cover ht first second, rfl⟩
      | fails ha he hn =>
          have numeric : op.isNumeric = true := by cases op <;> simp_all [BinaryOp.isNumeric]
          exact ⟨t, .calculation numeric cover ht first second, rfl⟩
  | @uses n m y line h =>
      generalize hr : (Except.error ⟨.undefinedVariable y, line⟩ : Except RuntimeError Value) = r
        at h
      cases h with
      | var y line =>
          refine ⟨_, rfl, fun tokens ⟨front, w, back, cover, worded⟩ => ?_⟩
          obtain ⟨t, rfl, ht, rfl, rfl⟩ := worded.of_var
          exact ⟨t, .value (by simpa using cover) ht, rfl⟩
      | assign y line value =>
          refine ⟨_, rfl, fun tokens ⟨front, w, back, cover, worded⟩ => ?_⟩
          obtain ⟨t, q, u, rfl, ht, rfl, rfl, hq, assigned⟩ := worded.of_assign
          exact ⟨t, .target cover ht hq assigned, rfl⟩

/-- Statements fail at one of them when those before it have finished, and do so in the same way,
with the same machine, whatever comes after that one. -/
def Stmt.FailsAtOne (limit : Nat) (body : List Stmt) (m : Machine) (x : RuntimeError)
    (m' : Machine) : Prop :=
  ∃ before s after m₁, body = before ++ s :: after ∧
    runAll limit before m = (.finished, m₁) ∧ s.run limit m₁ = (.failed x, m') ∧
    ∀ others, runAll limit (before ++ s :: others) m = (.failed x, m')

theorem Stmt.failsAtOne_of_failed {limit : Nat} {body : List Stmt} {m m' : Machine}
    {x : RuntimeError} (h : runAll limit body m = (.failed x, m')) :
    FailsAtOne limit body m x m' := by
  obtain ⟨i, s, m₁, hi, finished, failed⟩ :=
    Node.exists_element_of_failed (congrArg Prod.fst h)
  have whole (others : List Stmt) :
      runAll limit (body.take i ++ s :: others) m = s.run limit m₁ := by
    rw [runAll_append, finished, if_pos rfl, runAll_cons, failed, if_neg (by simp)]
  obtain ⟨inside, rfl⟩ := List.getElem?_eq_some_iff.1 hi
  have split : body = body.take i ++ body[i] :: body.drop (i + 1) := by
    rw [List.getElem_cons_drop, List.take_append_drop]
  have same := whole (body.drop (i + 1))
  rw [← split, h] at same
  exact ⟨_, _, _, m₁, split, finished, same.symm, fun others => (whole others).trans same.symm⟩

/-- The tokens of a text are on its lines. -/
theorem Lexical.line_of_mem_read {text : String} {t : Token} (h : t ∈ (read text).tokens) :
    1 ≤ t.line ∧ t.line ≤ 1 + text.toList.count '\n' := by
  rw [read_eq, List.mem_append, List.mem_singleton] at h
  obtain inside | rfl := h
  · obtain ⟨s, -, line, low, high, seen⟩ := exists_of_mem_scan inside
    rw [newlines_segments] at high
    cases s with
    | token kind text =>
        cases seen
        exact ⟨low, high⟩
    | _ => cases seen
  · exact ⟨Nat.le_add_right 1 _, Nat.le_refl _⟩

theorem Program.body_subset (tokens : List Token) : body tokens ⊆ tokens :=
  List.takeWhile_subset _

theorem RuntimeProblem.ArisesAt.mem {tokens : List Token} {p : RuntimeProblem} {t : Token}
    {e : Expr} (h : p.ArisesAt tokens t e) : t ∈ tokens := by
  cases h <;> simp_all

/-- The error of a run of a text that is read without an error, from any environment: the run has
come to an expression that the error is due to, a token of which is on the line of the error. That
line is at most the one of the end mark. The statements of the program, or of any block that was
entered, fail at one of them, and those after it do not matter. -/
theorem Script.failure_attributed (text : String) (clean : (ofText text).diagnostics = [])
    (limit : Nat) (environment : Environment) (output : Output) {x : RuntimeError} {m' : Machine}
    (failed : Stmt.runAll limit (ofText text).statements ⟨environment, output⟩ =
      (.failed x, m')) :
    let script := ofText text
    let root := Node.sequence script.statements
    let m : Machine := ⟨environment, output⟩
    (∃ way e m₁ t, root.Reaches limit m way (.expression e) m₁ ∧
      (Node.expression e).Raises m₁ x ∧
      x.problem.ArisesAt (Program.body script.reading.tokens) t e ∧ t.line = x.line) ∧
    (∃ front mark, script.reading.tokens = front ++ [mark] ∧ mark.kind = .eof ∧
      1 ≤ x.line ∧ x.line ≤ mark.line) ∧
    Stmt.FailsAtOne limit script.statements m x m' ∧
    ∀ way body m₁ y m₂, root.Reaches limit m way (.sequence body) m₁ →
      Stmt.runAll limit body m₁ = (.failed y, m₂) → Stmt.FailsAtOne limit body m₁ y m₂ := by
  intro script root m
  have faultless := (diagnostics_eq_nil_iff.1 clean).2
  obtain ⟨way, n, m₁, reaches, raises⟩ :=
    Node.exists_reaches_of_failed root (congrArg Prod.fst failed)
  obtain ⟨e, rfl, arises⟩ := raises.exists_arisesAt
  obtain ⟨t, at_token, line⟩ : ∃ t,
      x.problem.ArisesAt (Program.body script.reading.tokens) t e ∧ t.line = x.line := by
    obtain rfl | stands := Node.standsIn_program faultless e ⟨way, reaches.at?_eq⟩
    · -- A condition that is left out has a value.
      cases raises with
      | uses h => cases h
    · exact arises _ stands
  refine ⟨⟨way, e, m₁, t, reaches, raises, at_token, line⟩, ?_,
    Stmt.failsAtOne_of_failed failed, fun _ _ _ _ _ _ h => Stmt.failsAtOne_of_failed h⟩
  have mem : t ∈ script.reading.tokens := Program.body_subset _ at_token.mem
  rw [← line]
  exact ⟨_, Lexical.eofAt (1 + text.toList.count '\n'), congrArg Reading.tokens
    (Lexical.read_eq text), rfl, Lexical.line_of_mem_read mem⟩

theorem Script.failure_attributed_in_loop :
    let text := "for (var i = null; ; i = i * 2) \x7b\n  print 1;\n  if (i == null) i = 1;\n" ++
      "else print i + true;\n  print 2;\n\x7d\nprint 3;"
    let body := (ofText text).statements
    let run := Stmt.runAll 3 body ⟨.empty, .empty⟩
    (ofText text).diagnostics = [] ∧ run.1 = .failed ⟨.operandsNotNumbersOrStrings, 4⟩ ∧
      (∃ t ∈ (ofText text).reading.tokens, t.kind = .plus ∧ t.line = 4) ∧
      Stmt.FailsAtOne 3 body ⟨.empty, .empty⟩ ⟨.operandsNotNumbersOrStrings, 4⟩ run.2 := by
  intro text body run
  have clean : (ofText text).diagnostics = [] := by decide +kernel
  have ending : run.1 = .failed ⟨.operandsNotNumbersOrStrings, 4⟩ := by decide +kernel
  have ran : run = (.failed ⟨.operandsNotNumbersOrStrings, 4⟩, run.2) :=
    Prod.mk.eta.symm.trans (congrArg (·, run.2) ending)
  obtain ⟨⟨_, _, _, t, -, -, arises, line⟩, -, one, -⟩ :=
    failure_attributed text clean 3 .empty .empty ran
  have mem : t ∈ (ofText text).reading.tokens := Program.body_subset _ arises.mem
  refine ⟨clean, ending, ⟨t, mem, ?_, line⟩, one⟩
  cases arises with
  | sum _ ht => exact ht

end Lox
