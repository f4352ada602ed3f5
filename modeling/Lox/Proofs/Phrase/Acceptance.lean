import Lox.Proofs.Phrase.Grammar
import Lox.Proofs.Phrase.Program

/-!
The readers accept exactly the grammar: tokens are read as a program without a fault if and only if
their kinds can be derived from its rules. The grammar is ambiguous where an `else` may belong to
more than one `if`, and wordings are not; a derivation that joins an `else` to an outer `if` is
turned into a wording in which it belongs to the innermost one.
-/

namespace Lox
namespace Grammar

/-- A form holds of tokens when they can be cut up as it says, into phrases of a given sense. -/
def Form.Holds (S : Nonterminal → List Token → Prop) : Form → List Token → Prop
  | kind k, w => ∃ t, w = [t] ∧ t.kind = k
  | rule n, w => S n w
  | seq a b, w => ∃ u v, w = u ++ v ∧ a.Holds S u ∧ b.Holds S v
  | alt a b, w => a.Holds S w ∨ b.Holds S w
  | optional a, w => w = [] ∨ a.Holds S w
  | many a, w => ∃ parts : List (List Token), w = parts.flatten ∧ ∀ u ∈ parts, a.Holds S u

variable {S : Nonterminal → List Token → Prop}

/-- A sense that every rule respects covers all that can be derived. -/
theorem holds_of_derives (closed : ∀ n w, (production n).Holds S w → S n w) {a : Form}
    {ks : List Kind} (h : Derives a ks) {w : List Token} (hw : w.map Token.kind = ks) :
    a.Holds S w := by
  induction h generalizing w with
  | kind k =>
      obtain ⟨t, rfl, ht⟩ := List.map_eq_singleton_iff.1 hw
      exact ⟨t, rfl, ht⟩
  | rule _ ih => exact closed _ _ (ih hw)
  | seq _ _ iha ihb =>
      obtain ⟨u, v, rfl, hu, hv⟩ := List.map_eq_append_iff.1 hw
      exact ⟨u, v, rfl, iha hu, ihb hv⟩
  | left _ ih => exact .inl (ih hw)
  | right _ ih => exact .inr (ih hw)
  | absent => exact .inl (List.map_eq_nil_iff.1 hw)
  | present _ ih => exact .inr (ih hw)
  | stop => exact ⟨[], List.map_eq_nil_iff.1 hw, by simp⟩
  | again _ _ ih ihr =>
      obtain ⟨u, v, rfl, hu, hv⟩ := List.map_eq_append_iff.1 hw
      obtain ⟨parts, rfl, hp⟩ := ihr hv
      exact ⟨u :: parts, rfl, List.forall_mem_cons.2 ⟨ih hu, hp⟩⟩

def Operand (level : Nat) (w : List Token) : Prop := ∃ e, Expr.Wording w e ∧ e.level ≤ level

/-- What the tokens of a phrase are wordings of. -/
def Sense : Nonterminal → List Token → Prop
  | .program, w => ∃ body, Program.Wording w body
  | .declaration, w => ∃ s tail, Stmt.Wording w s tail
  | .varDecl, w => ∃ s, Stmt.Declaring w s
  | .statement, w => ∃ s tail, Stmt.Wording w s tail ∧ s.isDeclaration = false
  | .expression, w | .assignment, w => Operand 8 w
  | .logicOr, w => Operand 7 w
  | .logicAnd, w => Operand 6 w
  | .equality, w => Operand 5 w
  | .comparison, w => Operand 4 w
  | .term, w => Operand 3 w
  | .factor, w => Operand 2 w
  | .unary, w => Operand 1 w
  | .primary, w => Operand 0 w

theorem Operand.mono {n m : Nat} {w : List Token} (h : Operand n w) (hn : n ≤ m) : Operand m w :=
  let ⟨e, he, hl⟩ := h
  ⟨e, he, Nat.le_trans hl hn⟩

def Operator (rank : Nat) (a : Form) : Prop :=
  ∀ w, a.Holds Sense w → ∃ t c, w = [t] ∧ Connective.ofKind? t.kind = some c ∧ c.rank = rank

theorem operator_kind {rank : Nat} {k : Kind} {c : Connective} (hk : Connective.ofKind? k = some c)
    (hr : c.rank = rank) : Operator rank (.kind k) := by
  rintro w ⟨t, rfl, rfl⟩
  exact ⟨t, c, rfl, hk, hr⟩

theorem operator_or {rank : Nat} {a b : Form} (ha : Operator rank a) (hb : Operator rank b) :
    Operator rank (a ||| b) :=
  fun w h => h.elim (ha w) (hb w)

/-- Operands with connectives of one rank between them are joined from the left. -/
theorem operand_of_separated (operand : Nonterminal) {operator : Form} {rank : Nat} {w : List Token}
    (ho : ∀ w, Sense operand w → Operand rank w) (hc : Operator rank operator)
    (h : (separated operand operator).Holds Sense w) : Operand (rank + 1) w := by
  obtain ⟨u, v, rfl, hu, parts, rfl, hp⟩ := h
  obtain ⟨left, hl, hle⟩ := ho u hu
  replace hle := Nat.le_succ_of_le hle
  clear hu
  induction parts generalizing u left with
  | nil => exact ⟨left, by simpa using hl, hle⟩
  | cons part parts ih =>
      rw [List.forall_mem_cons] at hp
      obtain ⟨⟨o, x, rfl, hop, hx⟩, hp⟩ := hp
      obtain ⟨t, c, rfl, ht, rfl⟩ := hc o hop
      obtain ⟨right, hr, hre⟩ := ho x hx
      have joined := Expr.Wording.joined ht hle hre hl hr
      simpa using ih _ hp _ joined (Nat.le_of_eq (c.level_join _ _ _))

end Grammar

/-- An `else` with a statement can be added to a wording that ends in an open `if`. -/
theorem Stmt.Wording.attach {w v : List Token} {s s' : Stmt} {tail tail' : Bool}
    (h : Stmt.Wording w s tail) (open' : tail = true) {o : Token} (ho : o.kind = .elseWord)
    (hs' : s'.isDeclaration = false) (h' : Stmt.Wording v s' tail') :
    ∃ s'' tail'', Stmt.Wording (w ++ o :: v) s'' tail'' ∧ s''.isDeclaration = false := by
  induction h with
  | declaring | evaluating | print | block => cases open'
  | @ifThen f l r w u e s tail hf hl condition hr hs thenBranch ih =>
      cases tail with
      | false => exact ⟨_, _, .ifElse hf hl condition hr hs thenBranch ho hs' h', rfl⟩
      | true =>
          obtain ⟨s'', tail'', inner, hs''⟩ := ih rfl
          exact ⟨_, _, by simpa using Stmt.Wording.ifThen hf hl condition hr hs'' inner, rfl⟩
  | ifElse hf hl condition hr hs thenBranch ho' _ _ _ ih =>
      obtain ⟨s'', tail'', inner, hs''⟩ := ih open'
      have whole := Stmt.Wording.ifElse hf hl condition hr hs thenBranch ho' hs'' inner
      exact ⟨_, _, by simpa using whole, rfl⟩
  | loop hf hl condition hr _ _ ih =>
      obtain ⟨s'', tail'', inner, hs''⟩ := ih open'
      exact ⟨_, _, by simpa using Stmt.Wording.loop hf hl condition hr hs'' inner, rfl⟩
  | forLoop hf hl start test ht step hr _ _ ih =>
      obtain ⟨s'', tail'', inner, hs''⟩ := ih open'
      exact ⟨_, _, by simpa using Stmt.Wording.forLoop hf hl start test ht step hr hs'' inner,
        Reader.isDeclaration_forLoop _ _ _ _⟩

namespace Grammar

/-- Declarations in a row are wordings in a row. -/
theorem worded_of_many {w : List Token} (h : (Form.many (.rule .declaration)).Holds Sense w) :
    ∃ parts : List (List Token × Stmt × Bool), w = parts.flatMap (·.1) ∧
      ∀ q ∈ parts, Stmt.Wording q.1 q.2.1 q.2.2 := by
  obtain ⟨parts, rfl, hp⟩ := h
  induction parts with
  | nil => exact ⟨[], rfl, by simp⟩
  | cons u parts ih =>
      rw [List.forall_mem_cons] at hp
      obtain ⟨s, tail, hs⟩ := hp.1
      obtain ⟨worded, hw, hall⟩ := ih hp.2
      exact ⟨(u, s, tail) :: worded, by simp [hw], List.forall_mem_cons.2 ⟨hs, hall⟩⟩

theorem evaluating_of_holds {w : List Token}
    (h : (Form.rule .expression ++ .kind .semicolon).Holds Sense w) : ∃ s, Stmt.Evaluating w s := by
  obtain ⟨u, v, rfl, ⟨e, he, -⟩, t, rfl, ht⟩ := h
  exact ⟨.expression e, .intro he ht⟩

theorem starting_of_holds {w : List Token} (h : forStart.Holds Sense w) :
    ∃ first, Stmt.Starting w first := by
  obtain (⟨s, hs⟩ | hs) | ⟨t, rfl, ht⟩ := h
  · exact ⟨some s, .declaring hs⟩
  · obtain ⟨s, hs⟩ := evaluating_of_holds hs
    exact ⟨some s, .evaluating hs⟩
  · exact ⟨none, .absent ht⟩

theorem clause_of_holds {w : List Token} (h : (Form.optional (.rule .expression)).Holds Sense w) :
    ∃ e, Stmt.Clause w e := by
  obtain rfl | ⟨e, he, -⟩ := h
  · exact ⟨none, .absent⟩
  · exact ⟨some e, .present he⟩

theorem statement_of_holds {w : List Token} (h : (production .statement).Holds Sense w) :
    ∃ s tail, Stmt.Wording w s tail ∧ s.isDeclaration = false := by
  obtain ((((h | h) | h) | h) | h) | h := h
  · obtain ⟨s, hs⟩ := evaluating_of_holds h
    exact ⟨s, false, .evaluating hs, by cases hs; rfl⟩
  · obtain ⟨_, _, rfl, ⟨_, _, rfl, ⟨p, rfl, hp⟩, e, he, -⟩, t, rfl, ht⟩ := h
    exact ⟨_, _, .print hp he ht, rfl⟩
  · obtain ⟨_, _, rfl, ⟨_, _, rfl, ⟨l, rfl, hl⟩, hm⟩, r, rfl, hr⟩ := h
    obtain ⟨parts, rfl, hp⟩ := worded_of_many hm
    exact ⟨_, _, .block hl hp hr, rfl⟩
  · obtain ⟨_, _, rfl, ⟨_, _, rfl, ⟨_, _, rfl, ⟨_, _, rfl, ⟨_, _, rfl, ⟨f, rfl, hf⟩, l, rfl, hl⟩,
      e, he, -⟩, r, rfl, hr⟩, s, tail, hs, hd⟩, ho⟩ := h
    obtain rfl | ⟨_, _, rfl, ⟨o, rfl, ho⟩, s', tail', hs', hd'⟩ := ho
    · exact ⟨_, _, by simpa using Stmt.Wording.ifThen hf hl he hr hd hs, rfl⟩
    · cases tail with
      | false => exact ⟨_, _, by simpa using Stmt.Wording.ifElse hf hl he hr hd hs ho hd' hs', rfl⟩
      | true =>
          obtain ⟨s'', tail'', inner, hd''⟩ := hs.attach rfl ho hd' hs'
          exact ⟨_, _, by simpa using Stmt.Wording.ifThen hf hl he hr hd'' inner, rfl⟩
  · obtain ⟨_, _, rfl, ⟨_, _, rfl, ⟨_, _, rfl, ⟨_, _, rfl, ⟨f, rfl, hf⟩, l, rfl, hl⟩,
      e, he, -⟩, r, rfl, hr⟩, s, tail, hs, hd⟩ := h
    exact ⟨_, _, by simpa using Stmt.Wording.loop hf hl he hr hd hs, rfl⟩
  · obtain ⟨_, _, rfl, ⟨_, _, rfl, ⟨_, _, rfl, ⟨_, _, rfl, ⟨_, _, rfl, ⟨_, _, rfl, ⟨_, _, rfl,
      ⟨f, rfl, hf⟩, l, rfl, hl⟩, hi⟩, hc⟩, t, rfl, ht⟩, hu⟩, r, rfl, hr⟩, s, tail, hs, hd⟩ := h
    obtain ⟨first, start⟩ := starting_of_holds hi
    obtain ⟨condition, test⟩ := clause_of_holds hc
    obtain ⟨increment, step⟩ := clause_of_holds hu
    exact ⟨_, _, by simpa using Stmt.Wording.forLoop hf hl start test ht step hr hd hs,
      Reader.isDeclaration_forLoop _ _ _ _⟩

theorem sense_closed (n : Nonterminal) (w : List Token) (h : (production n).Holds Sense w) :
    Sense n w := by
  cases n with
  | program =>
      obtain ⟨parts, rfl, hp⟩ := worded_of_many h
      exact ⟨_, parts, rfl, rfl, hp⟩
  | declaration =>
      obtain ⟨s, hs⟩ | ⟨s, tail, hs, -⟩ := h
      · exact ⟨s, false, .declaring hs⟩
      · exact ⟨s, tail, hs⟩
  | varDecl =>
      obtain ⟨_, _, rfl, ⟨_, _, rfl, ⟨_, _, rfl, ⟨v, rfl, hv⟩, n, rfl, hn⟩, ho⟩, t, rfl, ht⟩ := h
      obtain rfl | ⟨_, _, rfl, ⟨q, rfl, hq⟩, e, he, -⟩ := ho
      · exact ⟨_, .bare hv hn ht⟩
      · exact ⟨_, .initialized hv hn hq he ht⟩
  | statement => exact statement_of_holds h
  | expression => exact h
  | assignment =>
      obtain ⟨_, _, rfl, ⟨_, _, rfl, ⟨n, rfl, hn⟩, q, rfl, hq⟩, e, he, -⟩ | ho := h
      · exact ⟨_, .assign hn hq he, Nat.le_refl _⟩
      · exact Operand.mono ho (by decide)
  | logicOr =>
      exact operand_of_separated .logicAnd (fun _ h => h) (operator_kind rfl rfl) h
  | logicAnd =>
      exact operand_of_separated .equality (fun _ h => h) (operator_kind rfl rfl) h
  | equality =>
      exact operand_of_separated .comparison (fun _ h => h)
        (operator_or (operator_kind rfl rfl) (operator_kind rfl rfl)) h
  | comparison =>
      exact operand_of_separated .term (fun _ h => h)
        (operator_or (operator_or (operator_or (operator_kind rfl rfl) (operator_kind rfl rfl))
          (operator_kind rfl rfl)) (operator_kind rfl rfl)) h
  | term =>
      exact operand_of_separated .factor (fun _ h => h)
        (operator_or (operator_kind rfl rfl) (operator_kind rfl rfl)) h
  | factor =>
      exact operand_of_separated .unary (fun _ h => h)
        (operator_or (operator_kind rfl rfl) (operator_kind rfl rfl)) h
  | unary =>
      obtain ⟨_, _, rfl, ⟨t, rfl, ht⟩ | ⟨t, rfl, ht⟩, e, he, hl⟩ | hp := h
      · have sign : UnaryOp.ofKind? t.kind = some .not := by rw [ht]; rfl
        exact ⟨_, .unary sign hl he, Nat.le_refl _⟩
      · have sign : UnaryOp.ofKind? t.kind = some .negate := by rw [ht]; rfl
        exact ⟨_, .unary sign hl he, Nat.le_refl _⟩
      · exact Operand.mono hp (by decide)
  | primary =>
      have literal {t : Token} {v : Value} (ht : t.value? = some v) : Operand 0 [t] :=
        ⟨_, .literal ht, Nat.le_refl _⟩
      obtain (((((⟨t, rfl, ht⟩ | ⟨t, rfl, ht⟩) | ⟨t, rfl, ht⟩) | ⟨t, rfl, ht⟩) | ⟨t, rfl, ht⟩) |
        ⟨_, _, rfl, ⟨_, _, rfl, ⟨l, rfl, hl⟩, e, he, -⟩, r, rfl, hr⟩) | ⟨t, rfl, ht⟩ := h
      · exact literal (v := t.literal.getD .nil) (by simp [Token.value?, ht])
      · exact literal (v := t.literal.getD .nil) (by simp [Token.value?, ht])
      · exact literal (v := .bool true) (by simp [Token.value?, ht])
      · exact literal (v := .bool false) (by simp [Token.value?, ht])
      · exact literal (v := .nil) (by simp [Token.value?, ht])
      · exact ⟨_, .grouping hl he hr, Nat.le_refl _⟩
      · exact ⟨_, .var ht, Nat.le_refl _⟩

def phrase : Nat → Nonterminal
  | 0 => .primary
  | 1 => .unary
  | 2 => .factor
  | 3 => .term
  | 4 => .comparison
  | 5 => .equality
  | 6 => .logicAnd
  | 7 => .logicOr
  | _ => .assignment

theorem derives_separated {operand : Nonterminal} {operator : Form} {w : List Kind}
    (h : Derives (.rule operand) w) : Derives (separated operand operator) w := by
  rw [← List.append_nil w]
  exact .seq h .stop

theorem derives_climb {n m : Nat} (hn : n ≤ m) {w : List Kind} (h : Derives (.rule (phrase n)) w) :
    Derives (.rule (phrase m)) w := by
  induction hn with
  | refl => exact h
  | @step m _ ih =>
      match m, ih with
      | 0, ih => exact .rule (.right ih)
      | 1, ih | 2, ih | 3, ih | 4, ih | 5, ih | 6, ih => exact .rule (derives_separated ih)
      | 7, ih => exact .rule (.right ih)
      | _ + 8, ih => exact ih

theorem derives_many_snoc {a : Form} {u v : List Kind} (h : Derives (.many a) u)
    (hv : Derives a v) : Derives (.many a) (u ++ v) := by
  generalize hm : Form.many a = m at h
  induction h with
  | stop =>
      cases hm
      simpa using Derives.again hv .stop
  | again hu _ _ ih =>
      cases hm
      rw [List.append_assoc]
      exact .again hu (ih rfl)
  | _ => cases hm

theorem derives_snoc {n operand : Nonterminal} {operator : Form} {u v o : List Kind}
    (hn : production n = separated operand operator) (h : Derives (.rule n) u)
    (ho : Derives operator o) (hv : Derives (.rule operand) v) :
    Derives (.rule n) (u ++ (o ++ v)) := by
  cases h with
  | rule h =>
      rw [hn] at h
      cases h with
      | seq hu hm =>
          rw [List.append_assoc]
          refine .rule ?_
          rw [hn]
          exact .seq hu (derives_many_snoc hm (.seq ho hv))

theorem separated_of_connective {k : Kind} {c : Connective} (h : Connective.ofKind? k = some c) :
    ∃ operator, production (phrase (c.rank + 1)) = separated (phrase c.rank) operator ∧
      Derives operator [k] := by
  cases k <;> simp only [Connective.ofKind?, Option.some.injEq, reduceCtorEq] at h <;> subst h
  case slash | minus | bangEqual => exact ⟨_, rfl, .left (.kind _)⟩
  case star | plus | equalEqual | lessEqual => exact ⟨_, rfl, .right (.kind _)⟩
  case orWord | andWord => exact ⟨_, rfl, .kind _⟩
  case greater => exact ⟨_, rfl, .left (.left (.left (.kind _)))⟩
  case greaterEqual => exact ⟨_, rfl, .left (.left (.right (.kind _)))⟩
  case less => exact ⟨_, rfl, .left (.right (.kind _))⟩

theorem derives_of_value {t : Token} {v : Value} (h : t.value? = some v) :
    Derives (.rule .primary) [t.kind] := by
  cases hk : t.kind <;> simp [Token.value?, hk] at h
  case number => exact .rule (.left (.left (.left (.left (.left (.left (.kind _)))))))
  case string => exact .rule (.left (.left (.left (.left (.left (.right (.kind _)))))))
  case trueWord => exact .rule (.left (.left (.left (.left (.right (.kind _))))))
  case falseWord => exact .rule (.left (.left (.left (.right (.kind _)))))
  case nullWord => exact .rule (.left (.left (.right (.kind _))))

theorem derives_of_sign {k : Kind} {op : UnaryOp} (h : UnaryOp.ofKind? k = some op)
    {w : List Kind} (hw : Derives (.rule .unary) w) : Derives (.rule .unary) (k :: w) := by
  cases k <;> simp [UnaryOp.ofKind?] at h
  case bang => exact .rule (.left (.seq (.left (.kind _)) hw))
  case minus => exact .rule (.left (.seq (.right (.kind _)) hw))

theorem derives_of_expr {w : List Token} {e : Expr} (h : Expr.Wording w e) :
    Derives (.rule (phrase e.level)) (w.map Token.kind) := by
  induction h with
  | literal ht => exact derives_of_value ht
  | @var t ht =>
      rw [List.map_singleton, ht]
      exact .rule (.right (.kind _))
  | @grouping l r w e hl _ hr ih =>
      have inner : Derives (.rule .expression) (w.map Token.kind) :=
        .rule (derives_climb e.level_le ih)
      have := Derives.rule (n := .primary)
        (.left (.right (.seq (.seq (.kind .leftParen) inner) (.kind .rightParen))))
      simpa [hl, hr, Expr.level, phrase] using this
  | unary ht hl _ ih => exact derives_of_sign ht (derives_climb hl ih)
  | @joined t c u v l r ht hl hr _ _ ihl ihr =>
      obtain ⟨operator, hp, ho⟩ := separated_of_connective ht
      rw [c.level_join, List.map_append, List.map_cons]
      exact derives_snoc hp (derives_climb hl ihl) ho (derives_climb hr ihr)
  | @assign n q w e hn hq _ ih =>
      have value := derives_climb e.level_le ih
      have := Derives.rule (n := .assignment)
        (.left (.seq (.seq (.kind .identifier) (.kind .equal)) value))
      simpa [hn, hq, Expr.level, phrase] using this

theorem derives_expression {w : List Token} {e : Expr} (h : Expr.Wording w e) :
    Derives (.rule .expression) (w.map Token.kind) :=
  .rule (derives_climb e.level_le (derives_of_expr h))

theorem derives_declaring {w : List Token} {s : Stmt} (h : Stmt.Declaring w s) :
    Derives (.rule .varDecl) (w.map Token.kind) := by
  cases h with
  | bare hv hn ht =>
      have := Derives.rule (n := .varDecl)
        (.seq (.seq (.seq (.kind .varWord) (.kind .identifier)) .absent) (.kind .semicolon))
      simpa [hv, hn, ht] using this
  | initialized hv hn hq value ht =>
      have := Derives.rule (n := .varDecl)
        (.seq (.seq (.seq (.kind .varWord) (.kind .identifier))
          (.present (.seq (.kind .equal) (derives_expression value)))) (.kind .semicolon))
      simpa [hv, hn, hq, ht] using this

theorem derives_evaluating {w : List Token} {s : Stmt} (h : Stmt.Evaluating w s) :
    Derives (.seq (.rule .expression) (.kind .semicolon)) (w.map Token.kind) := by
  obtain ⟨value, ht⟩ := h
  simpa [ht] using Derives.seq (derives_expression value) (.kind .semicolon)

theorem derives_starting {w : List Token} {first : Option Stmt} (h : Stmt.Starting w first) :
    Derives forStart (w.map Token.kind) := by
  cases h with
  | absent ht =>
      rw [List.map_singleton, ht]
      exact .right (.kind .semicolon)
  | declaring h => exact .left (.left (derives_declaring h))
  | evaluating h => exact .left (.right (derives_evaluating h))

theorem derives_clause {w : List Token} {e : Option Expr} (h : Stmt.Clause w e) :
    Derives (.optional (.rule .expression)) (w.map Token.kind) := by
  cases h with
  | absent => exact .absent
  | present h => exact .present (derives_expression h)

theorem derives_many_of_parts {parts : List (List Token × Stmt × Bool)}
    (h : ∀ q ∈ parts, Derives (.rule .declaration) (q.1.map Token.kind)) :
    Derives (.many (.rule .declaration)) ((parts.flatMap (·.1)).map Token.kind) := by
  induction parts with
  | nil => exact .stop
  | cons q parts ih =>
      rw [List.forall_mem_cons] at h
      rw [List.flatMap_cons, List.map_append]
      exact .again h.1 (ih h.2)

/-- The tokens of a wording are a declaration of the grammar, and a statement unless they declare a
variable. -/
theorem derives_of_stmt {w : List Token} {s : Stmt} {tail : Bool} (h : Stmt.Wording w s tail) :
    Derives (.rule .declaration) (w.map Token.kind) ∧
      (s.isDeclaration = false → Derives (.rule .statement) (w.map Token.kind)) := by
  have both {w : List Token} {s : Stmt} (h : Derives (.rule .statement) (w.map Token.kind)) :
      Derives (.rule .declaration) (w.map Token.kind) ∧
        (s.isDeclaration = false → Derives (.rule .statement) (w.map Token.kind)) :=
    ⟨.rule (.right h), fun _ => h⟩
  induction h with
  | declaring h =>
      refine ⟨.rule (.left (derives_declaring h)), fun hs => ?_⟩
      cases h <;> cases hs
  | evaluating h =>
      exact both (.rule (.left (.left (.left (.left (.left (derives_evaluating h)))))))
  | print hp value ht =>
      have := Derives.rule (n := .statement) (.left (.left (.left (.left (.right
        (.seq (.seq (.kind .printWord) (derives_expression value)) (.kind .semicolon)))))))
      exact both (by simpa [hp, ht] using this)
  | block hl _ hr ih =>
      have inside := derives_many_of_parts fun q hq => (ih q hq).1
      have := Derives.rule (n := .statement) (.left (.left (.left (.right
        (.seq (.seq (.kind .leftBrace) inside) (.kind .rightBrace))))))
      exact both (by simpa [hl, hr] using this)
  | ifThen hf hl condition hr hs _ ih =>
      have := Derives.rule (n := .statement) (.left (.left (.right
        (.seq (.seq (.seq (.seq (.seq (.kind .ifWord) (.kind .leftParen))
          (derives_expression condition)) (.kind .rightParen)) (ih.2 hs)) .absent))))
      exact both (by simpa [hf, hl, hr] using this)
  | ifElse hf hl condition hr hs _ ho hs' _ ih ih' =>
      have := Derives.rule (n := .statement) (.left (.left (.right
        (.seq (.seq (.seq (.seq (.seq (.kind .ifWord) (.kind .leftParen))
          (derives_expression condition)) (.kind .rightParen)) (ih.2 hs))
          (.present (.seq (.kind .elseWord) (ih'.2 hs')))))))
      exact both (by simpa [hf, hl, hr, ho] using this)
  | loop hf hl condition hr hs _ ih =>
      have := Derives.rule (n := .statement) (.left (.right
        (.seq (.seq (.seq (.seq (.kind .whileWord) (.kind .leftParen))
          (derives_expression condition)) (.kind .rightParen)) (ih.2 hs))))
      exact both (by simpa [hf, hl, hr] using this)
  | forLoop hf hl start test ht step hr hs _ ih =>
      have := Derives.rule (n := .statement) (.right
        (.seq (.seq (.seq (.seq (.seq (.seq (.seq (.kind .forWord) (.kind .leftParen))
          (derives_starting start)) (derives_clause test)) (.kind .semicolon))
          (derives_clause step)) (.kind .rightParen)) (ih.2 hs)))
      exact both (by simpa [hf, hl, ht, hr] using this)

end Grammar

/-- A list of tokens is read without a fault exactly when the kinds of the tokens before its first
end mark can be derived from the grammar. -/
theorem Program.faults_eq_nil_iff_derives (tokens : List Token) :
    (ofTokens tokens).faults = [] ↔
      Grammar.Derives (.rule .program) ((body tokens).map Token.kind) := by
  constructor
  · intro h
    obtain ⟨parts, ht, -, hw⟩ := wording_of_faults_nil h
    rw [ht]
    exact .rule (Grammar.derives_many_of_parts fun q hq => (Grammar.derives_of_stmt (hw q hq)).1)
  · intro h
    obtain ⟨statements, hw⟩ := Grammar.holds_of_derives Grammar.sense_closed h rfl
    rw [ofTokens_of_wording hw]

end Lox
