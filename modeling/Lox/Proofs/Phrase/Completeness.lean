import Lox.Proofs.Phrase.Wording

/-!
What is worded is read: given the wording of a tree, and after it tokens that cannot continue it,
the readers answer with that tree and leave those tokens.
-/

namespace Lox
namespace Reader

/-- The next token is no connective of a given rank or a lower one. -/
def Follows (rank : Nat) (tokens : List Token) : Prop :=
  ∀ t ∈ tokens.head?, ∀ c, Connective.ofKind? t.kind = some c → rank < c.rank

/-- The next token neither continues an expression nor makes an assignment of it. -/
def Ends (tokens : List Token) : Prop :=
  ∀ t ∈ tokens.head?, Connective.ofKind? t.kind = none ∧ t.kind ≠ .equal

theorem Follows.mono {n m : Nat} {tokens : List Token} (h : Follows m tokens) (hn : n ≤ m) :
    Follows n tokens :=
  fun t ht c hc => Nat.lt_of_le_of_lt hn (h t ht c hc)

theorem follows_cons {rank : Nat} {t : Token} {c : Connective}
    (ht : Connective.ofKind? t.kind = some c) (h : rank < c.rank) (rest : List Token) :
    Follows rank (t :: rest) := by
  intro u hu d hd
  obtain rfl : t = u := by simpa using hu
  rw [ht] at hd
  cases hd
  exact h

theorem follows_of_none {t : Token} (ht : Connective.ofKind? t.kind = none) (rank : Nat)
    (rest : List Token) : Follows rank (t :: rest) := by
  intro u hu d hd
  obtain rfl : t = u := by simpa using hu
  simp [ht] at hd

theorem Ends.follows {tokens : List Token} (h : Ends tokens) (rank : Nat) :
    Follows rank tokens :=
  fun t ht c hc => by simp [(h t ht).1] at hc

theorem Ends.notNext {tokens : List Token} (h : Ends tokens) : NotNext .equal tokens :=
  fun t ht => (h t ht).2

theorem ends_of_semicolon {t : Token} (ht : t.kind = .semicolon) (rest : List Token) :
    Ends (t :: rest) := by
  simp [Ends, ht, Connective.ofKind?]

theorem ends_of_rightParen {t : Token} (ht : t.kind = .rightParen) (rest : List Token) :
    Ends (t :: rest) := by
  simp [Ends, ht, Connective.ofKind?]

theorem more_of_follows {rank : Nat} {tokens : List Token} (h : Follows (rank + 1) tokens)
    (left : Expr) : more rank left tokens = .done left [] tokens := by
  cases tokens with
  | nil => exact more_nil rank left
  | cons t rest =>
      apply more_of_none
      cases hc : Connective.ofKindAt? (rank + 1) t.kind with
      | none => rfl
      | some c =>
          obtain ⟨hk, hr⟩ := Connective.ofKindAt?_eq_some_iff.1 hc
          have := h t (by simp) c hk
          omega

def ReadsAt (w : List Token) (e : Expr) : Prop :=
  ∀ rank rest, rank ≤ Connective.loosest → e.level ≤ rank + 1 → Follows rank rest →
    level rank (w ++ rest) = .done e [] rest

/-- Read as a left operand, a wording leaves the reader where connectives of the next rank may
follow. -/
def ReadsBelow (w : List Token) (e : Expr) : Prop :=
  ∀ rank rest, rank < Connective.loosest → e.level ≤ rank + 2 → Follows rank rest →
    level (rank + 1) (w ++ rest) = more rank e rest

theorem readsAt_of_readsBelow {w : List Token} {e : Expr} (hb : ReadsBelow w e)
    (hz : e.level ≤ 1 → ∀ rest, Follows 0 rest → level 0 (w ++ rest) = .done e [] rest) :
    ReadsAt w e := by
  intro rank rest hr hl hf
  cases rank with
  | zero => exact hz hl rest hf
  | succ rank =>
      rw [hb rank rest hr hl (hf.mono (Nat.le_succ rank)), more_of_follows hf]

/-- A wording that is read by the reader of some rank can stand as a left operand above it. -/
theorem level_climb {w : List Token} {e : Expr} {base : Nat}
    (h : ∀ rest, Follows base rest → level base (w ++ rest) = .done e [] rest) {rank : Nat}
    (hr : base ≤ rank) {rest : List Token} (hf : Follows rank rest) :
    level (rank + 1) (w ++ rest) = more rank e rest := by
  induction hr generalizing rest with
  | refl => rw [level_succ, bind_of_clean (h rest hf)]
  | @step rank hr ih =>
      have here := ih (hf.mono (Nat.le_succ rank))
      rw [more_of_follows hf] at here
      rw [level_succ, bind_of_clean here]

theorem readsAt_of_level_zero {w : List Token} {e : Expr}
    (h : ∀ rest, level 0 (w ++ rest) = .done e [] rest) : ReadsAt w e ∧ ReadsBelow w e := by
  have below : ReadsBelow w e := fun rank rest _ _ hf =>
    level_climb (fun rest _ => h rest) (Nat.zero_le rank) hf
  exact ⟨readsAt_of_readsBelow below fun _ rest _ => h rest, below⟩

theorem expression_of_readsAt {w rest : List Token} {e : Expr} (h : ReadsAt w e)
    (hl : e.level ≤ 7) (he : Ends rest) : expression (w ++ rest) = .done e [] rest := by
  have target := h Connective.loosest rest (Nat.le_refl _) hl (he.follows _)
  rw [expression_ladder]
  exact assignment_of_absent target he.notNext

theorem level_zero_of_primary {t : Token} (h : t.kind = .identifier ∨ t.kind = .leftParen ∨
    ∃ v, t.value? = some v) (rest : List Token) :
    level 0 (t :: rest) = primary expression (t :: rest) := by
  apply level_zero_of_unsigned
  cases hk : t.kind <;> simp_all [UnaryOp.ofKind?, Token.value?]

/-- All that a wording is read as, by the readers of operands and by that of expressions. -/
theorem complete_expr {w : List Token} {e : Expr} (h : Expr.Wording w e) :
    ReadsAt w e ∧ ReadsBelow w e ∧
      ∀ rest, Ends rest → expression (w ++ rest) = .done e [] rest := by
  induction h with
  | @literal t v ht =>
      have hz (rest : List Token) : level 0 ([t] ++ rest) = .done (.literal v) [] rest :=
        (level_zero_of_primary (.inr (.inr ⟨v, ht⟩)) rest).trans (primary_of_value ht _ rest)
      obtain ⟨hat, below⟩ := readsAt_of_level_zero hz
      exact ⟨hat, below, fun rest he => expression_of_readsAt hat (Nat.zero_le _) he⟩
  | @var t ht =>
      have hz (rest : List Token) : level 0 ([t] ++ rest) = .done (.var t.lexeme t.line) [] rest :=
        (level_zero_of_primary (.inl ht) rest).trans (primary_of_identifier ht _ rest)
      obtain ⟨hat, below⟩ := readsAt_of_level_zero hz
      exact ⟨hat, below, fun rest he => expression_of_readsAt hat (Nat.zero_le _) he⟩
  | @grouping l r w e hl _ hr ih =>
      have hz (rest : List Token) :
          level 0 (l :: w ++ [r] ++ rest) = .done (.grouping e) [] rest := by
        have inner := ih.2.2 (r :: rest) (ends_of_rightParen hr rest)
        simp only [List.cons_append, List.append_assoc, List.nil_append]
        rw [level_zero_of_primary (.inr (.inl hl)), primary_of_paren hl, bind_of_clean inner,
          bind_of_clean (expect_of_eq hr rest)]
        rfl
      obtain ⟨hat, below⟩ := readsAt_of_level_zero hz
      exact ⟨hat, below, fun rest he => expression_of_readsAt hat (Nat.zero_le _) he⟩
  | @unary t op w e ht hl _ ih =>
      have hz (rest : List Token) (hf : Follows 0 rest) :
          level 0 (t :: w ++ rest) = .done (.unary op t.line e) [] rest := by
        have operand := ih.1 0 rest (Nat.zero_le _) hl hf
        rw [List.cons_append, level_zero_of_sign ht, bind_of_clean operand]
        rfl
      have below : ReadsBelow (t :: w) (.unary op t.line e) := fun rank rest _ _ hf =>
        level_climb hz (Nat.zero_le rank) hf
      have hat := readsAt_of_readsBelow below fun _ => hz
      exact ⟨hat, below, fun rest he => expression_of_readsAt hat (by simp [Expr.level]) he⟩
  | @joined t c u v l r ht hl hr _ _ ihl ihr =>
      obtain ⟨k, hk⟩ : ∃ k, c.rank = k + 1 := ⟨c.rank - 1, by have := c.rank_pos; omega⟩
      have loosest := c.rank_le_loosest
      have six : Connective.loosest = 6 := rfl
      have hc := Connective.ofKindAt?_eq_some_iff.2 ⟨ht, hk⟩
      -- Up to the connective the left operand is read, and then the right one joins it.
      have here (rest : List Token) (hf : Follows k rest) :
          level (k + 1) (u ++ t :: v ++ rest) = more k (c.join t.line l r) rest := by
        have left := ihl.2.1 k (t :: (v ++ rest)) (by omega) (by omega)
          (follows_cons ht (by omega) _)
        have right := ihr.1 k rest (by omega) (by omega) hf
        rw [List.append_assoc, List.cons_append, left, more_of_some hc, bind_of_clean right]
      have read (rest : List Token) (hf : Follows (k + 1) rest) :
          level (k + 1) (u ++ t :: v ++ rest) = .done (c.join t.line l r) [] rest := by
        rw [here rest (hf.mono (Nat.le_succ k)), more_of_follows hf]
      have hlevel := c.level_join t.line l r
      have below : ReadsBelow (u ++ t :: v) (c.join t.line l r) := by
        intro rank rest hrank hle hf
        by_cases hkr : k = rank
        · subst hkr
          exact here rest hf
        · exact level_climb read (by omega) hf
      have hat := readsAt_of_readsBelow below fun hle => by omega
      exact ⟨hat, below, fun rest he => expression_of_readsAt hat (by omega) he⟩
  | @assign n q w e hn hq _ ih =>
      refine ⟨fun rank rest hr hl _ => ?_, fun rank rest hr hl _ => ?_, fun rest he => ?_⟩
      · simp only [Expr.level, Connective.loosest] at hr hl
        omega
      · simp only [Expr.level, Connective.loosest] at hr hl
        omega
      · have hz (rest : List Token) :
            level 0 ([n] ++ rest) = .done (.var n.lexeme n.line) [] rest :=
          (level_zero_of_primary (.inl hn) rest).trans (primary_of_identifier hn _ rest)
        have hf : Follows Connective.loosest (q :: (w ++ rest)) :=
          follows_of_none (by simp [hq, Connective.ofKind?]) _ _
        have target := (readsAt_of_level_zero hz).1 _ _ (Nat.le_refl _) (Nat.zero_le _) hf
        rw [expression_ladder]
        exact assignment_of_var target hq rfl (ih.2.2 rest he)

theorem complete_expression {w rest : List Token} {e : Expr} (h : Expr.Wording w e)
    (he : Ends rest) : expression (w ++ rest) = .done e [] rest :=
  (complete_expr h).2.2 rest he

theorem statement_of_beginsExpression {t : Token} (h : t.kind.beginsExpression = true)
    (rest : List Token) : statement (t :: rest) = expressionStatement (t :: rest) := by
  rw [statement_eq]
  cases hk : t.kind <;> simp_all [statementOf, Kind.beginsExpression]

theorem declaration_of_notNext {p : Reader Stmt} {tokens : List Token}
    (h : NotNext .varWord tokens) : declaration p tokens = p tokens :=
  bind_of_clean (take?_of_notNext h) _

theorem complete_declaring {w : List Token} {s : Stmt} (h : Stmt.Declaring w s) (p : Reader Stmt)
    (rest : List Token) : declaration p (w ++ rest) = .done s [] rest := by
  cases h with
  | @bare v n t hv hn ht =>
      have none : initialValue (t :: rest) = .done none [] (t :: rest) :=
        bind_of_clean (take?_of_notNext (notNext_cons.2 (by simp [ht]))) _
      simp only [List.cons_append, List.nil_append]
      rw [declaration, bind_of_clean (take?_of_eq hv _)]
      show declaredVariable _ = _
      rw [declaredVariable, bind_of_clean (take_clean_iff.2 ⟨rfl, hn⟩), bind_of_clean none,
        bind_of_clean (expect_of_eq ht rest)]
      rfl
  | @initialized v n q t w e hv hn hq value ht =>
      have some : initialValue (q :: (w ++ t :: rest)) = .done (some e) [] (t :: rest) := by
        rw [initialValue, bind_of_clean (take?_of_eq hq _)]
        exact map_of_clean (complete_expression value (ends_of_semicolon ht rest)) _
      simp only [List.cons_append, List.append_assoc, List.nil_append]
      rw [declaration, bind_of_clean (take?_of_eq hv _)]
      show declaredVariable _ = _
      rw [declaredVariable, bind_of_clean (take_clean_iff.2 ⟨rfl, hn⟩), bind_of_clean some,
        bind_of_clean (expect_of_eq ht rest)]
      rfl

theorem complete_evaluating {w : List Token} {s : Stmt} (h : Stmt.Evaluating w s)
    (rest : List Token) : expressionStatement (w ++ rest) = .done s [] rest := by
  obtain ⟨value, ht⟩ := h
  rw [List.append_assoc, List.singleton_append, expressionStatement,
    bind_of_clean (complete_expression value (ends_of_semicolon ht rest)),
    bind_of_clean (expect_of_eq ht rest)]
  rfl

theorem initializer_of_notNext {tokens : List Token} (h : NotNext .semicolon tokens) :
    initializer tokens = (some <$> declaration expressionStatement : Reader _) tokens :=
  bind_of_clean (take?_of_notNext h) _

theorem complete_starting {w : List Token} {first : Option Stmt} (h : Stmt.Starting w first)
    (rest : List Token) : initializer (w ++ rest) = .done first [] rest := by
  cases h with
  | absent ht => exact bind_of_clean (take?_of_eq ht rest) _
  | declaring h =>
      have read := complete_declaring h expressionStatement rest
      obtain ⟨v, more, rfl, hv⟩ := h.head
      have skip : NotNext .semicolon (v :: more ++ rest) := notNext_cons.2 (by simp [hv])
      rw [initializer_of_notNext skip]
      exact map_of_clean read _
  | evaluating h =>
      have read := complete_evaluating h rest
      obtain ⟨t, more, rfl, ht⟩ := h.head
      have skip (k : Kind) (hk : k.beginsExpression = false) : NotNext k (t :: more ++ rest) :=
        notNext_cons.2 (Kind.ne_of_beginsExpression ht hk)
      rw [initializer_of_notNext (skip _ rfl)]
      exact map_of_clean ((declaration_of_notNext (skip _ rfl)).trans read) _

theorem complete_clause {w : List Token} {e : Option Expr} (h : Stmt.Clause w e) (t : Token)
    (rest : List Token) (ht : t.kind.beginsExpression = false) (he : Ends (t :: rest)) :
    optionalBefore t.kind expression (w ++ t :: rest) = .done e [] (t :: rest) := by
  cases h with
  | absent => exact optionalBefore_of_next rfl rest
  | present h =>
      obtain ⟨u, more, rfl, hu⟩ := h.head
      have skip := Kind.ne_of_beginsExpression hu ht
      exact optionalBefore_of_clean (notNext_cons.2 skip) (complete_expression h he)

/-- A wording is read as a declaration or a statement, unless an `else` follows that it would
take. -/
def ReadsPart (w : List Token) (s : Stmt) (tail : Bool) : Prop :=
  ∀ rest, (tail = true → NotNext .elseWord rest) →
    declaration statement (w ++ rest) = .done s [] rest

theorem declarations_of_closes {one : Reader Stmt} {close : Kind} {rest : List Token}
    (h : ∀ t ∈ rest.head?, t.kind = close) : declarations one close rest = ⟨[], [], rest⟩ := by
  cases rest with
  | nil => exact declarations_nil one close
  | cons t rest => exact declarations_close one rest (h t (by simp))

theorem complete_declarations (close : Kind) (hc : close.beginsStatement = false)
    (hv : close ≠ .varWord) (he : close ≠ .elseWord) (rest : List Token)
    (hr : ∀ t ∈ rest.head?, t.kind = close) {parts : List (List Token × Stmt × Bool)}
    (worded : ∀ q ∈ parts, Stmt.Wording q.1 q.2.1 q.2.2)
    (read : ∀ q ∈ parts, ReadsPart q.1 q.2.1 q.2.2) :
    declarations (declaration statement) close (parts.flatMap (·.1) ++ rest) =
      ⟨parts.map (·.2.1), [], rest⟩ := by
  induction parts with
  | nil => simpa using declarations_of_closes hr
  | cons q parts ih =>
      obtain ⟨w, s, tail⟩ := q
      rw [List.forall_mem_cons] at worded read
      have next : NotNext .elseWord (parts.flatMap (·.1) ++ rest) := by
        cases parts with
        | nil => exact fun t ht => by rw [hr t ht]; exact he
        | cons q parts =>
            obtain ⟨u, more, hu, hk⟩ := (worded.2 q (by simp)).head
            simp only [List.flatMap_cons, hu, List.cons_append, notNext_cons]
            rintro hk'
            simp [hk', Kind.beginsStatement, Kind.beginsExpression] at hk
      have one := read.1 _ fun _ => next
      have others := ih worded.2 read.2
      obtain ⟨t, more, ht, hk⟩ := worded.1.head
      have open' : t.kind ≠ close := by
        rintro rfl
        obtain hk | ⟨hk, _⟩ := hk
        · simp [hc] at hk
        · exact hv hk
      simp only at ht
      subst ht
      simp only [List.flatMap_cons, List.append_assoc, List.cons_append] at one ⊢
      rw [declarations_cons (takes_declaration takes_statement)
        (advances_declaration advances_statement) _ open', one]
      simp [others, Declarations.after]

theorem statement_of_readsPart {w : List Token} {s : Stmt} {tail : Bool}
    (worded : Stmt.Wording w s tail) (hs : s.isDeclaration = false) (read : ReadsPart w s tail)
    {rest : List Token} (hr : tail = true → NotNext .elseWord rest) :
    statement (w ++ rest) = .done s [] rest := by
  obtain ⟨t, more, rfl, hk⟩ := worded.head
  rw [← read rest hr]
  refine (declaration_of_notNext (notNext_cons.2 fun hv => ?_)).symm
  simp [hv, hs, Kind.beginsStatement, Kind.beginsExpression] at hk

theorem declaration_of_statement {t : Token} {w rest : List Token} {s : Stmt}
    (ht : t.kind.beginsStatement = true)
    (h : statementOf statement (t :: w) = .done s [] rest) :
    declaration statement (t :: w) = .done s [] rest := by
  rw [declaration_of_notNext, statement_eq, h]
  exact notNext_cons.2 fun hv => by simp [hv, Kind.beginsStatement, Kind.beginsExpression] at ht

/-- A condition in parentheses, and what is read after it. -/
theorem complete_condition {opening closing : Piece} {l r : Token} {w rest : List Token} {e : Expr}
    (hl : l.kind = opening.kind) (hw : Expr.Wording w e) (hr : r.kind = closing.kind)
    (hc : r.kind = .rightParen) (f : Expr → Reader Stmt) :
    (do
      expect opening
      let condition ← expression
      expect closing
      f condition : Reader Stmt) (l :: w ++ r :: rest) = f e rest := by
  rw [List.cons_append, bind_of_clean (expect_of_eq hl _),
    bind_of_clean (complete_expression hw (ends_of_rightParen hc rest)),
    bind_of_clean (expect_of_eq hr rest)]

theorem complete_stmt {w : List Token} {s : Stmt} {tail : Bool} (h : Stmt.Wording w s tail) :
    ReadsPart w s tail := by
  induction h with
  | declaring h => exact fun rest _ => complete_declaring h statement rest
  | @evaluating w s h =>
      intro rest _
      have read := complete_evaluating h rest
      obtain ⟨t, more, rfl, ht⟩ := h.head
      have skip : NotNext .varWord (t :: more ++ rest) :=
        notNext_cons.2 (Kind.ne_of_beginsExpression ht rfl)
      rw [declaration_of_notNext skip, List.cons_append, statement_of_beginsExpression ht]
      exact read
  | @print p t w e hp value ht =>
      intro rest _
      rw [List.cons_append, List.cons_append, List.append_assoc, List.singleton_append]
      apply declaration_of_statement (by simp [hp, Kind.beginsStatement])
      simp only [statementOf, hp]
      rw [printed, bind_of_clean (complete_expression value (ends_of_semicolon ht rest)),
        bind_of_clean (expect_of_eq ht rest)]
      rfl
  | @block l r parts hl body hr ih =>
      intro rest _
      have read := complete_declarations .rightBrace rfl (by decide) (by decide)
        (r :: rest) (by simp [hr]) body ih
      have inside : blockBody (declaration statement) (parts.flatMap (·.1) ++ r :: rest) =
          .done (parts.map (·.2.1)) [] (r :: rest) := by
        simp only [blockBody, read]
      rw [List.cons_append, List.cons_append, List.append_assoc, List.singleton_append]
      apply declaration_of_statement (by simp [hl, Kind.beginsStatement])
      simp only [statementOf, hl]
      rw [block, bind_of_clean inside, bind_of_clean (expect_of_eq hr rest)]
      rfl
  | @ifThen f l r w u e s tail hf hl condition hr hs thenBranch ih =>
      intro rest he
      have branch := statement_of_readsPart thenBranch hs ih fun _ => he rfl
      simp only [List.cons_append, List.append_assoc]
      apply declaration_of_statement (by simp [hf, Kind.beginsStatement])
      simp only [statementOf, hf]
      refine (complete_condition hl condition hr hr _).trans ?_
      rw [bind_of_clean branch, bind_of_clean (take?_of_notNext (he rfl))]
      rfl
  | @ifElse f l r o w u v e s s' tail hf hl condition hr hs thenBranch ho hs' elseBranch ih ih' =>
      intro rest he
      have closed : false = true → NotNext .elseWord (o :: (v ++ rest)) := by simp
      have branch := statement_of_readsPart thenBranch hs ih closed
      have other := statement_of_readsPart elseBranch hs' ih' he
      simp only [List.cons_append, List.append_assoc]
      apply declaration_of_statement (by simp [hf, Kind.beginsStatement])
      simp only [statementOf, hf]
      refine (complete_condition hl condition hr hr _).trans ?_
      rw [bind_of_clean branch, bind_of_clean (take?_of_eq ho _)]
      exact bind_of_clean other _
  | @loop f l r w u e s tail hf hl condition hr hs body ih =>
      intro rest he
      have turn := statement_of_readsPart body hs ih he
      simp only [List.cons_append, List.append_assoc]
      apply declaration_of_statement (by simp [hf, Kind.beginsStatement])
      simp only [statementOf, hf]
      refine (complete_condition hl condition hr hr _).trans ?_
      exact bind_of_clean turn _
  | @forLoop f l t r w₁ w₂ w₃ u first condition increment s tail hf hl start test ht step hr hs
      body ih =>
      intro rest he
      have turn := statement_of_readsPart body hs ih he
      have clause := complete_clause test t (w₃ ++ r :: (u ++ rest)) (by simp [ht]; rfl)
        (ends_of_semicolon ht _)
      have last := complete_clause step r (u ++ rest) (by simp [hr]; rfl)
        (ends_of_rightParen hr _)
      rw [ht] at clause
      rw [hr] at last
      simp only [List.cons_append, List.append_assoc]
      apply declaration_of_statement (by simp [hf, Kind.beginsStatement])
      simp only [statementOf, hf]
      rw [forLoop, bind_of_clean (expect_of_eq hl _), bind_of_clean (complete_starting start _),
        bind_of_clean clause, bind_of_clean (expect_of_eq ht _), bind_of_clean last,
        bind_of_clean (expect_of_eq hr _)]
      exact bind_of_clean turn _

end Reader
end Lox
