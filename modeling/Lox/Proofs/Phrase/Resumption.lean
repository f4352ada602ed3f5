import Lox.Proofs.Phrase.Boundary
import Lox.Proofs.Phrase.Composition
import Lox.Proofs.Phrase.Merging

/-!
Plain statements without their semicolon. Such a statement fails at the token after it, and reading
goes on behind the next plain statement; or it runs into that one, if it is an expression that
begins with a minus, and the two are read as one.
-/

namespace Lox

def Kind.Quiet (k : Kind) : Prop := k ≠ .semicolon ∧ Reader.boundary.contains k = false

instance (k : Kind) : Decidable k.Quiet := inferInstanceAs (Decidable (_ ∧ _))

theorem Token.quiet_of_value {t : Token} {v : Value} (h : t.value? = some v) : t.kind.Quiet := by
  cases hk : t.kind <;> simp [Token.value?, hk] at h <;> decide

theorem UnaryOp.quiet {k : Kind} {op : UnaryOp} (h : ofKind? k = some op) : k.Quiet := by
  cases k <;> simp [ofKind?] at h <;> decide

theorem Connective.quiet {k : Kind} {c : Connective} (h : ofKind? k = some c) : k.Quiet := by
  cases k <;> simp [ofKind?] at h <;> decide

/-- Reading goes on over the tokens of an expression. -/
theorem Expr.Wording.quiet {w : List Token} {e : Expr} (h : Wording w e) :
    ∀ t ∈ w, t.kind.Quiet := by
  induction h with
  | literal h => simpa using Token.quiet_of_value h
  | var h => simpa [h] using (by decide : Kind.identifier.Quiet)
  | @grouping _ r _ _ hl _ hr ih =>
      have closed : ∀ t ∈ [r], t.kind.Quiet := List.forall_mem_singleton.2 (hr ▸ by decide)
      exact List.forall_mem_cons.2 ⟨hl ▸ by decide, List.forall_mem_append.2 ⟨ih, closed⟩⟩
  | unary ht _ _ ih => exact List.forall_mem_cons.2 ⟨UnaryOp.quiet ht, ih⟩
  | joined ht _ _ _ _ ihl ihr =>
      exact List.forall_mem_append.2 ⟨ihl, List.forall_mem_cons.2 ⟨Connective.quiet ht, ihr⟩⟩
  | assign hn hq _ ih =>
      exact List.forall_mem_cons.2
        ⟨hn ▸ by decide, List.forall_mem_cons.2 ⟨hq ▸ by decide, ih⟩⟩

namespace Reader

/-- After a fault at some token reading goes on behind the next semicolon, if there is no boundary
before it. -/
theorem resume_quiet {h t : Token} {mid : List Token} (hh : h.kind ≠ .semicolon)
    (quiet : ∀ u ∈ mid, u.kind.Quiet) (ht : t.kind = .semicolon) (rest : List Token) :
    resume (h :: mid ++ t :: rest) = rest := by
  induction mid generalizing h with
  | nil =>
      have goes : boundary.contains t.kind = false := by rw [ht]; rfl
      rw [List.cons_append, List.nil_append, resume, if_neg hh]
      simp only [goes, Bool.false_eq_true, if_false]
      exact resume_of_semicolon ht rest
  | cons u mid ih =>
      obtain ⟨⟨hu, goes⟩, more⟩ := List.forall_mem_cons.1 quiet
      have next := ih hu more
      rw [List.cons_append, List.cons_append, resume, if_neg hh]
      simp only [goes, Bool.false_eq_true, if_false]
      exact next

theorem expect_of_notNext {piece : Piece} {tokens : List Token} (h : NotNext piece.kind tokens) :
    expect piece tokens = .failed ⟨.missing piece, tokens.head?⟩ [] tokens := by
  cases tokens with
  | nil => rfl
  | cons t rest => simp [expect, take, notNext_cons.1 h, fail]

theorem bind_of_done {α β : Type} {p : Reader α} {f : α → Reader β} {tokens left rest : List Token}
    {a : α} {b : β} {passed : List Fault} (h : p tokens = .done a passed left)
    (hf : f a left = .done b [] rest) : (p >>= f) tokens = .done b passed rest := by
  rw [bind_apply, h]
  simp only [hf, Reply.after, List.append_nil]

theorem map_bind {α β γ : Type} (f : α → β) (p : Reader α) (g : β → Reader γ) :
    ((f <$> p) >>= g) = (p >>= fun a => g (f a)) := by
  funext tokens
  show ((p >>= fun a => Pure.pure (f a)) >>= g) tokens = _
  rw [bind_apply, bind_apply, bind_apply]
  cases p tokens with
  | done a passed rest => simp [pure_apply, Reply.after]
  | failed => rfl

end Reader

namespace Stmt

/-- How plain statements with a value begin: the tokens before the value, the semicolon that has to
come after it, and the statement that the value makes. -/
inductive Opening : List Token → Piece → (Expr → Stmt) → Prop
  | declaring {v n q : Token} (hv : v.kind = .varWord) (hn : n.kind = .identifier)
      (hq : q.kind = .equal) : Opening [v, n, q] .semicolonAfterDeclaration
        fun e => .declare n.lexeme (some e) n.line
  | printing {p : Token} (hp : p.kind = .printWord) : Opening [p] .semicolonAfterValue .print
  | evaluating : Opening [] .semicolonAfterExpression .expression

/-- A plain statement declares a name without a value, or has a value. -/
theorem Wording.plain_cases {x : List Token} {s : Stmt} {tail : Bool} (h : Wording x s tail)
    (plain : s.Plain) :
    (∃ v n t : Token, v.kind = .varWord ∧ n.kind = .identifier ∧ t.kind = .semicolon ∧
      x = [v, n, t] ∧ s = .declare n.lexeme none n.line ∧ tail = false) ∨
    ∃ front w t piece make e, Opening front piece make ∧ Expr.Wording w e ∧ t.kind = .semicolon ∧
      x = front ++ w ++ [t] ∧ s = make e ∧ tail = false := by
  cases h with
  | declaring h =>
      cases h with
      | bare hv hn ht => exact .inl ⟨_, _, _, hv, hn, ht, rfl, rfl, rfl⟩
      | initialized hv hn hq value ht =>
          exact .inr ⟨_, _, _, _, _, _, .declaring hv hn hq, value, ht, rfl, rfl, rfl⟩
  | evaluating h =>
      obtain ⟨value, ht⟩ := h
      exact .inr ⟨_, _, _, _, _, _, .evaluating, value, ht, rfl, rfl, rfl⟩
  | print hp value ht =>
      exact .inr ⟨_, _, _, _, _, _, .printing hp, value, ht, rfl, rfl, rfl⟩
  | block | ifThen | ifElse | loop => cases plain
  | @forLoop _ _ _ _ _ _ _ _ first => cases first <;> cases plain

namespace Opening

variable {front : List Token} {piece : Piece} {make : Expr → Stmt}

theorem kind_eq (h : Opening front piece make) : piece.kind = .semicolon := by
  cases h <;> rfl

theorem isDeclaration_eq (h : Opening front piece make) (e e' : Expr) :
    (make e).isDeclaration = (make e').isDeclaration := by
  cases h <;> rfl

theorem wording (h : Opening front piece make) {w : List Token} {e : Expr} {t : Token}
    (hw : Expr.Wording w e) (ht : t.kind = .semicolon) :
    Wording (front ++ w ++ [t]) (make e) false := by
  cases h with
  | declaring hv hn hq => exact .declaring (.initialized hv hn hq hw ht)
  | printing hp => exact .print hp hw ht
  | evaluating => exact .evaluating (.intro hw ht)

end Opening

end Stmt

namespace Reader

/-- What is read of a plain statement from its value on. -/
theorem read_opening {front : List Token} {piece : Piece} {make : Expr → Stmt}
    (h : Stmt.Opening front piece make) {w : List Token} {e : Expr} (hw : Expr.Wording w e)
    (rest : List Token) : declaration statement (front ++ w ++ rest) =
      (do
        let e ← expression
        expect piece
        return make e : Reader Stmt) (w ++ rest) := by
  obtain ⟨t, more, rfl, ht⟩ := hw.head
  cases h with
  | @declaring v n q hv hn hq =>
      have value : initialValue (q :: t :: (more ++ rest)) =
          (some <$> expression : Reader (Option Expr)) (t :: (more ++ rest)) := by
        rw [initialValue, bind_of_clean (take?_of_eq hq _)]
      simp only [List.cons_append, List.nil_append]
      rw [declaration, bind_of_clean (take?_of_eq hv _)]
      show declaredVariable _ = _
      rw [declaredVariable, bind_of_clean (take_clean_iff.2 ⟨rfl, hn⟩), bind_apply, value,
        ← bind_apply, map_bind]
  | @printing p hp =>
      have skip : NotNext .varWord (p :: (t :: more ++ rest)) := notNext_cons.2 (by simp [hp])
      rw [List.append_assoc, List.singleton_append, declaration_of_notNext skip, statement_eq]
      simp only [statementOf, hp]
      rfl
  | evaluating =>
      have skip : NotNext .varWord (t :: more ++ rest) :=
        notNext_cons.2 (Kind.ne_of_beginsExpression ht rfl)
      rw [List.nil_append, declaration_of_notNext skip, List.cons_append,
        statement_of_beginsExpression ht]
      rfl

/-- A declaration or a statement fails where some tokens end, and passes over no fault before. -/
def Stuck (u rest : List Token) : Prop :=
  ∃ fault, declaration statement (u ++ rest) = .failed fault [] rest

/-- Without its semicolon a plain statement fails at what cannot continue its value. -/
theorem failed_of_opening {front : List Token} {piece : Piece} {make : Expr → Stmt}
    (h : Stmt.Opening front piece make) {w : List Token} {e : Expr} (hw : Expr.Wording w e)
    {rest : List Token} (ends : Ends rest) (absent : NotNext .semicolon rest) :
    declaration statement (front ++ w ++ rest) =
      .failed ⟨.missing piece, rest.head?⟩ [] rest := by
  rw [read_opening h hw, bind_of_clean (complete_expression hw ends)]
  exact bind_of_failed (expect_of_notNext (h.kind_eq ▸ absent)) _

theorem failed_of_bare {v n : Token} (hv : v.kind = .varWord) (hn : n.kind = .identifier)
    {rest : List Token} (ends : NotNext .equal rest)
    (absent : NotNext Piece.semicolonAfterDeclaration.kind rest) :
    declaration statement ([v, n] ++ rest) =
      .failed ⟨.missing .semicolonAfterDeclaration, rest.head?⟩ [] rest := by
  have none : initialValue rest = .done none [] rest := bind_of_clean (take?_of_notNext ends) _
  rw [List.cons_append, List.singleton_append, declaration, bind_of_clean (take?_of_eq hv _)]
  show declaredVariable _ = _
  rw [declaredVariable, bind_of_clean (take_clean_iff.2 ⟨rfl, hn⟩), bind_of_clean none]
  exact bind_of_failed (expect_of_notNext absent) _

/-- After a fault at its first token, reading goes on behind a plain statement. -/
theorem resume_of_plain {x : List Token} {s : Stmt} {tail : Bool} (h : Stmt.Wording x s tail)
    (plain : s.Plain) (rest : List Token) : resume (x ++ rest) = rest := by
  obtain ⟨v, n, t, hv, hn, ht, rfl, -⟩ | ⟨front, w, t, _, _, e, opening, hw, ht, rfl, -⟩ :=
    h.plain_cases plain
  · have quiet : ∀ u ∈ [n], u.kind.Quiet := by simp [hn]; decide
    exact resume_quiet (by simp [hv]) quiet ht rest
  · have quiet := hw.quiet
    rw [List.append_assoc, List.singleton_append]
    cases opening with
    | @declaring v n q hv hn hq =>
        have more : ∀ u ∈ n :: q :: w, u.kind.Quiet :=
          List.forall_mem_cons.2 ⟨hn ▸ by decide, List.forall_mem_cons.2 ⟨hq ▸ by decide, quiet⟩⟩
        exact resume_quiet (by simp [hv]) more ht rest
    | printing hp => exact resume_quiet (by simp [hp]) quiet ht rest
    | evaluating =>
        obtain ⟨u, mid, rfl, hu⟩ := hw.head
        exact resume_quiet (Kind.ne_of_beginsExpression hu rfl)
          (List.forall_mem_cons.1 quiet).2 ht rest

inductive Next : List Token → List Token → Prop
  | nothing : Next [] []
  | plain {y : List Token} {s : Stmt} {tail : Bool} (h : Stmt.Wording y s tail) (plain : s.Plain)
      (rest : List Token) : Next y rest

theorem resume_of_next {y rest : List Token} (h : Next y rest) : resume (y ++ rest) = rest := by
  cases h with
  | nothing => rfl
  | plain h plain => exact resume_of_plain h plain rest

/-- What comes after a statement cannot continue it, unless it is an expression that begins with a
minus. -/
theorem next_cases {y rest : List Token} (h : Next y rest) :
    NotNext .semicolon (y ++ rest) ∧ NotNext .equal (y ++ rest) ∧
      (Ends (y ++ rest) ∨ ∃ n w t e, n.kind = .minus ∧ Expr.Wording (n :: w) e ∧
        t.kind = .semicolon ∧ y = n :: w ++ [t]) := by
  cases h with
  | nothing => exact ⟨by simp [NotNext], by simp [NotNext], .inl (by simp [Ends])⟩
  | @plain y s tail h plain rest =>
      obtain ⟨n, more, rfl, hn⟩ := h.head
      have begins : n.kind.beginsStatement = true ∨ n.kind = .varWord := hn.imp_right And.left
      have apart : n.kind ≠ .semicolon ∧ n.kind ≠ .equal ∧
          (n.kind = .minus ∨ Connective.ofKind? n.kind = none) := by
        cases hk : n.kind <;>
          simp_all [Kind.beginsStatement, Kind.beginsExpression, Connective.ofKind?]
      obtain ⟨semicolon, equal, continues⟩ := apart
      refine ⟨notNext_cons.2 semicolon, notNext_cons.2 equal, ?_⟩
      obtain minus | none := continues
      · obtain ⟨v, _, _, hv, -, -, hx, -⟩ | ⟨front, w, t, _, _, e, opening, hw, ht, hx, -⟩ :=
          h.plain_cases plain
        · cases hx
          cases minus.symm.trans hv
        · cases opening with
          | declaring hv =>
              cases hx
              cases minus.symm.trans hv
          | printing hp =>
              cases hx
              cases minus.symm.trans hp
          | evaluating =>
              obtain ⟨u, mid, rfl, -⟩ := hw.head
              cases hx
              exact .inr ⟨_, _, _, _, minus, hw, ht, rfl⟩
      · exact .inl (by simp [Ends, none, equal])

/-- The tokens of a statement without their semicolon, and those of another one, are the tokens of a
statement. -/
def Merges (u y : List Token) (s : Stmt) (tail : Bool) : Prop :=
  ∃ s', Stmt.Wording (u ++ y) s' tail ∧ s'.isDeclaration = s.isDeclaration

/-- Without its semicolon a plain statement runs into what comes after it or fails there. -/
theorem merges_or_stuck_of_plain {u y rest : List Token} {t : Token} {s : Stmt} {tail : Bool}
    (h : Stmt.Wording (u ++ [t]) s tail) (plain : s.Plain) (next : Next y rest) :
    Merges u y s tail ∨ Stuck u (y ++ rest) := by
  obtain ⟨semicolon, equal, continues⟩ := next_cases next
  obtain ⟨v, n, t', hv, hn, -, hx, -⟩ | ⟨front, w, _, _, make, e, opening, hw, -, hx, rfl, rfl⟩ :=
    h.plain_cases plain
  · have cut : u ++ [t] = [v, n] ++ [t'] := hx
    obtain ⟨rfl, -⟩ := List.append_inj' cut rfl
    exact .inr ⟨_, failed_of_bare hv hn equal semicolon⟩
  · obtain ⟨rfl, -⟩ := List.append_inj' hx rfl
    obtain ends | ⟨n, w', t', e', minus, hw', ht', rfl⟩ := continues
    · exact .inr ⟨_, failed_of_opening opening hw ends semicolon⟩
    · obtain ⟨joined, worded⟩ := hw.append_of_minus hw' minus
      refine .inl ⟨make joined, ?_, opening.isDeclaration_eq joined e⟩
      have whole := opening.wording worded ht'
      rwa [← List.append_assoc, List.append_assoc] at whole

end Reader
end Lox
