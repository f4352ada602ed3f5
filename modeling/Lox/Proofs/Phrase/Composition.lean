import Lox.Proofs.Phrase.Ladder

/-!
Properties that readers inherit from the readers they are made of. A property that holds of the
simplest readers and is kept by the ways of putting readers together holds of the reader of
statements; so a fact about all the readers needs a proof for each of these ways only. How
statements end is no such property, since it goes by what is read last; there are ways of its own
for it.
-/

namespace Lox

namespace Reply

variable {α : Type}

def passed : Reply α → List Fault
  | done _ passed _ | failed _ passed _ => passed

@[simp]
theorem passed_done (value : α) (passed : List Fault) (rest : List Token) :
    (done value passed rest).passed = passed := rfl

@[simp]
theorem passed_failed (fault : Fault) (passed : List Fault) (rest : List Token) :
    (failed fault passed rest : Reply α).passed = passed := rfl

@[simp]
theorem rest_done (value : α) (passed : List Fault) (rest : List Token) :
    (done value passed rest).rest = rest := rfl

@[simp]
theorem rest_failed (fault : Fault) (passed : List Fault) (rest : List Token) :
    (failed fault passed rest : Reply α).rest = rest := rfl

@[simp]
theorem passed_after (earlier : List Fault) (r : Reply α) :
    (r.after earlier).passed = earlier ++ r.passed := by
  cases r <;> rfl

end Reply

namespace Reader

section advances

theorem advances_primary {inner : Reader Expr} (h : Takes inner) : Advances (primary inner) := by
  intro tokens value passed rest hd
  cases tokens with
  | nil => cases hd
  | cons t more =>
      have group : Takes (do
          let e ← inner
          expect .parenAfterExpression
          return .grouping e : Reader Expr) :=
        takes_bind h fun _ => takes_bind (takes_expect _) fun _ => takes_pure _
      simp only [primary] at hd
      split at hd
      case h_7 => exact Nat.lt_succ_of_le (group.length_le hd)
      case h_8 => cases hd
      all_goals
        cases hd
        exact Nat.lt_succ_self _

theorem advances_signed {unsigned : Reader Expr} (ht : Takes unsigned) (h : Advances unsigned)
    (n : Nat) : Advances (signed unsigned n) := by
  induction n with
  | zero => exact h
  | succ n ih =>
      intro tokens value passed rest hd
      cases tokens with
      | nil => exact h _ _ _ _ hd
      | cons t more =>
          simp only [signed] at hd
          split at hd
          · exact h _ _ _ _ hd
          · obtain ⟨operand, _, left, _, read, last, -⟩ := done_of_bind hd
            cases last
            exact Nat.lt_succ_of_le ((takes_signed ht n).length_le read)

theorem advances_ranked {operand : Reader Expr} (ht : Takes operand) (h : Advances operand)
    (n rank : Nat) : Advances (ranked operand n rank) := by
  induction rank with
  | zero => exact h
  | succ rank ih =>
      exact advances_bind_left ih fun left => takes_chain (takes_ranked ht n rank) _ n left

end advances

/-- All that the reader of assignments can answer. -/
theorem assignment_cases {motive : Reply Expr → Prop} (left value : Reader Expr)
    (tokens : List Token)
    (stuck : ∀ fault passed rest, left tokens = .failed fault passed rest →
      motive (.failed fault passed rest))
    (absent : ∀ target passed rest, left tokens = .done target passed rest →
      motive (.done target passed rest))
    (unread : ∀ target passed q rest fault passed' last,
      left tokens = .done target passed (q :: rest) → q.kind = .equal →
      value rest = .failed fault passed' last → motive (.failed fault (passed ++ passed') last))
    (assigned : ∀ name line passed q rest e passed' last,
      left tokens = .done (.var name line) passed (q :: rest) → q.kind = .equal →
      value rest = .done e passed' last →
      motive (.done (.assign name line e) (passed ++ passed') last))
    (other : ∀ target passed q rest e passed' last,
      left tokens = .done target passed (q :: rest) → q.kind = .equal →
      value rest = .done e passed' last →
      motive (.done target (passed ++ (passed' ++ [⟨.invalidTarget, some q⟩])) last)) :
    motive (assignment left value tokens) := by
  cases h : left tokens with
  | failed fault passed rest =>
      rw [assignment_of_failed h]
      exact stuck _ _ _ h
  | done target passed rest =>
      by_cases hn : NotNext .equal rest
      · rw [assignment_of_absent h hn]
        exact absent _ _ _ h
      · obtain ⟨q, rest, rfl, hq⟩ : ∃ q more, rest = q :: more ∧ q.kind = .equal := by
          cases rest with
          | nil => simp [NotNext] at hn
          | cons q more => exact ⟨q, more, rfl, by simpa [notNext_cons] using hn⟩
        cases hv : value rest with
        | failed fault passed' last =>
            rw [assignment_of_value_failed h hq hv]
            exact unread _ _ _ _ _ _ _ h hq hv
        | done e passed' last =>
            by_cases ht : ∃ name line, target = .var name line
            · obtain ⟨name, line, rfl⟩ := ht
              rw [assignment_of_var h hq rfl hv]
              exact assigned _ _ _ _ _ _ _ _ h hq hv
            · rw [assignment_of_other h hq (fun name line eq => ht ⟨name, line, eq⟩) hv]
              exact other _ _ _ _ _ _ _ h hq hv

/-- A property that readers of expressions inherit from their parts. -/
structure Inherited (P : {α : Type} → Reader α → Prop) : Prop where
  pure : ∀ {α : Type} (value : α), P (Pure.pure value : Reader α)
  fail : ∀ {α : Type} {problem : Problem}, problem ≠ .invalidTarget →
    P (fail problem : Reader α)
  peek : P peek
  bind : ∀ {α β : Type} {p : Reader α} {f : α → Reader β}, P p → (∀ a, P (f a)) → P (p >>= f)
  /-- A reader may go by the first token: it takes that and reads on, or leaves it. -/
  branch : ∀ {α : Type} {p : Reader α}, (∃ q : Reader α, P q ∧ p [] = q []) →
    (∀ t, ∃ q : Reader α, P q ∧
      ((∀ rest, p (t :: rest) = q rest) ∨ ∀ rest, p (t :: rest) = q (t :: rest))) → P p
  /-- What holds of a reader under every bound holds of it without one. -/
  within : ∀ {α : Type} {within : Nat → Reader α} {p : Reader α}, (∀ n, P (within n)) →
    (∀ {n : Nat} {tokens : List Token}, tokens.length ≤ n → within n tokens = p tokens) → P p

namespace Inherited

variable {P : {α : Type} → Reader α → Prop} (h : Inherited P)

include h

theorem map {α β : Type} {p : Reader α} (f : α → β) (hp : P p) : P (f <$> p) :=
  h.bind hp fun _ => h.pure _

theorem take? (kind : Kind) : P (Reader.take? kind) := by
  refine h.branch ⟨_, h.pure none, rfl⟩ fun t => ?_
  by_cases hk : t.kind = kind
  · exact ⟨_, h.pure (some t), .inl fun rest => take?_of_eq hk rest⟩
  · exact ⟨_, h.pure none, .inr fun rest => take?_of_notNext (notNext_cons.2 hk)⟩

theorem take (kind : Kind) {problem : Problem} (hp : problem ≠ .invalidTarget) :
    P (Reader.take kind problem) := by
  refine h.branch ⟨_, h.fail hp, rfl⟩ fun t => ?_
  by_cases hk : t.kind = kind
  · exact ⟨_, h.pure t, .inl fun rest => take_clean_iff.2 ⟨rfl, hk⟩⟩
  · exact ⟨_, h.fail hp, .inr fun rest => by simp [Reader.take, hk]⟩

theorem expect (piece : Piece) : P (Reader.expect piece) := by
  have hp : Problem.missing piece ≠ .invalidTarget := by simp
  refine h.branch ⟨_, h.fail hp, rfl⟩ fun t => ?_
  by_cases hk : t.kind = piece.kind
  · exact ⟨_, h.pure (), .inl fun rest => expect_of_eq hk rest⟩
  · exact ⟨_, h.fail hp, .inr fun rest => by
      simp [Reader.expect, Reader.take, hk, Reader.fail]⟩

theorem optionalBefore {α : Type} (kind : Kind) {p : Reader α} (hp : P p) :
    P (Reader.optionalBefore kind p) := by
  refine h.bind h.peek fun next => ?_
  split
  · exact h.pure _
  · exact h.bind hp fun _ => h.pure _

theorem primary {inner : Reader Expr} (hi : P inner) : P (Reader.primary inner) := by
  have none : Problem.noExpression ≠ .invalidTarget := by simp
  refine h.branch ⟨_, h.fail none, rfl⟩ fun t => ?_
  by_cases paren : t.kind = .leftParen
  · exact ⟨_, h.bind hi fun e => h.bind (h.expect .parenAfterExpression) fun _ =>
      h.pure (Expr.grouping e), .inl (primary_of_paren paren inner)⟩
  · by_cases name : t.kind = .identifier
    · exact ⟨_, h.pure (.var t.lexeme t.line), .inl (primary_of_identifier name inner)⟩
    · cases hv : t.value? with
      | some v => exact ⟨_, h.pure (.literal v), .inl (primary_of_value hv inner)⟩
      | none => exact ⟨_, h.fail none, .inr (primary_of_none hv name paren inner)⟩

theorem signed {unsigned : Reader Expr} (hu : P unsigned) (n : Nat) :
    P (Reader.signed unsigned n) := by
  induction n with
  | zero => exact hu
  | succ n ih =>
      refine h.branch ⟨_, hu, rfl⟩ fun t => ?_
      cases ho : UnaryOp.ofKind? t.kind with
      | none => exact ⟨_, hu, .inr fun rest => by simp only [Reader.signed, ho]⟩
      | some op =>
          exact ⟨_, h.bind ih fun operand => h.pure (Expr.unary op t.line operand),
            .inl fun rest => by simp only [Reader.signed, ho]⟩

theorem chain {operand : Reader Expr} (ho : P operand) (rank n : Nat) (left : Expr) :
    P (Reader.chain operand rank n left) := by
  induction n generalizing left with
  | zero => exact h.pure left
  | succ n ih =>
      refine h.branch ⟨_, h.pure left, rfl⟩ fun t => ?_
      cases hc : Connective.ofKindAt? rank t.kind with
      | none => exact ⟨_, h.pure left, .inr fun rest => by simp only [Reader.chain, hc]; rfl⟩
      | some c =>
          exact ⟨_, h.bind ho fun right => ih (c.join t.line left right),
            .inl fun rest => by simp only [Reader.chain, hc]⟩

theorem ranked {operand : Reader Expr} (ho : P operand) (n rank : Nat) :
    P (Reader.ranked operand n rank) := by
  induction rank with
  | zero => exact ho
  | succ rank ih => exact h.bind ih fun left => h.chain ih (rank + 1) n left

theorem assignment {left value : Reader Expr}
    (pass : ∀ t, P (Reader.pass ⟨.invalidTarget, some t⟩)) (hl : P left) (hv : P value) :
    P (Reader.assignment left value) := by
  refine h.bind hl fun target => h.bind (h.take? .equal) fun equals => ?_
  cases equals with
  | none => exact h.pure _
  | some t =>
      refine h.bind hv fun v => ?_
      split
      · exact h.pure _
      · exact h.bind (pass t) fun _ => h.pure _

theorem block {one : Reader Stmt} (hb : P (Reader.blockBody one)) : P (Reader.block one) :=
  h.bind hb fun _ => h.bind (h.expect _) fun _ => h.pure _

end Inherited

def Lenient {α : Type} (p : Reader α) : Prop :=
  ∀ tokens, ∀ f ∈ (p tokens).passed, f.problem = .invalidTarget

theorem lenient_inherited : Inherited Lenient where
  pure value tokens f hf := by cases hf
  fail _ tokens f hf := by cases hf
  peek tokens f hf := by cases hf
  bind {α β p g} hp hg tokens f hf := by
    have first := hp tokens f
    cases hc : p tokens with
    | done a passed left =>
        rw [after_of_done hc, Reply.passed_after, List.mem_append] at hf
        rw [hc] at first
        exact hf.elim first (hg a left f)
    | failed fault passed left =>
        rw [bind_apply, hc] at hf
        rw [hc] at first
        exact first hf
  branch nil cons tokens f hf := by
    cases tokens with
    | nil =>
        obtain ⟨q, hq, same⟩ := nil
        exact hq [] f (same ▸ hf)
    | cons t rest =>
        obtain ⟨q, hq, same | same⟩ := cons t
        · exact hq rest f (same rest ▸ hf)
        · exact hq (t :: rest) f (same rest ▸ hf)
  within h same tokens := same (Nat.le_refl tokens.length) ▸ h tokens.length tokens

theorem lenient_assignment {left value : Reader Expr} (hl : Lenient left) (hv : Lenient value) :
    Lenient (assignment left value) := by
  refine lenient_inherited.assignment (fun t tokens f hf => ?_) hl hv
  obtain rfl : f = ⟨.invalidTarget, some t⟩ := by simpa [pass, Reply.passed] using hf
  rfl

def braced (one : Reader Stmt) : Reader Stmt := do
  let _ ← take .leftBrace .noExpression
  block one

/-- A property that all readers inherit from their parts. -/
structure Pervasive (P : {α : Type} → Reader α → Prop) : Prop extends Inherited P where
  assignment : ∀ {left value : Reader Expr}, P left → P value → Takes left → Advances left →
    Takes value → Lenient value → P (assignment left value)
  braced : ∀ {one : Reader Stmt}, P one → Takes one → Advances one → P (braced one)

namespace Pervasive

variable {P : {α : Type} → Reader α → Prop} (h : Pervasive P)

include h

theorem expressionWithin (n : Nat) :
    P (Reader.expressionWithin n) ∧ Lenient (Reader.expressionWithin n) := by
  induction n with
  | zero =>
      have none : Problem.noExpression ≠ .invalidTarget := by simp
      exact ⟨h.fail none, lenient_inherited.fail none⟩
  | succ n ih =>
      have takes := takes_expressionWithin n
      have signed := takes_signed (takes_primary takes) (n + 1)
      have advances := advances_signed (takes_primary takes) (advances_primary takes) (n + 1)
      exact ⟨h.assignment (h.ranked (h.signed (h.primary ih.1) _) _ _) ih.1
          (takes_ranked signed _ _) (advances_ranked signed advances _ _) takes ih.2,
        lenient_assignment (lenient_inherited.ranked
          (lenient_inherited.signed (lenient_inherited.primary ih.2) _) _ _) ih.2⟩

theorem expression : P Reader.expression :=
  h.within (fun n => (h.expressionWithin n).1) expressionWithin_eq

theorem initialValue : P Reader.initialValue := by
  refine h.bind (h.take? _) fun equals => ?_
  cases equals with
  | none => exact h.pure _
  | some _ => exact h.map _ h.expression

theorem declaredVariable : P Reader.declaredVariable :=
  h.bind (h.take _ (by simp)) fun _ => h.bind h.initialValue fun _ =>
    h.bind (h.expect _) fun _ => h.pure _

theorem printed : P Reader.printed :=
  h.bind h.expression fun _ => h.bind (h.expect _) fun _ => h.pure _

theorem expressionStatement : P Reader.expressionStatement :=
  h.bind h.expression fun _ => h.bind (h.expect _) fun _ => h.pure _

theorem declaration {p : Reader Stmt} (hp : P p) : P (Reader.declaration p) := by
  refine h.bind (h.take? _) fun word => ?_
  cases word with
  | none => exact hp
  | some _ => exact h.declaredVariable

theorem conditional {p : Reader Stmt} (hp : P p) : P (Reader.conditional p) := by
  refine h.bind (h.expect _) fun _ => h.bind h.expression fun _ => h.bind (h.expect _) fun _ =>
    h.bind hp fun _ => h.bind (h.take? _) fun word => ?_
  cases word with
  | none => exact h.pure _
  | some _ => exact h.bind hp fun _ => h.pure _

theorem whileLoop {p : Reader Stmt} (hp : P p) : P (Reader.whileLoop p) :=
  h.bind (h.expect _) fun _ => h.bind h.expression fun _ => h.bind (h.expect _) fun _ =>
    h.bind hp fun _ => h.pure _

theorem initializer : P Reader.initializer := by
  refine h.bind (h.take? _) fun semicolon => ?_
  cases semicolon with
  | some _ => exact h.pure _
  | none => exact h.map _ (h.declaration h.expressionStatement)

theorem forLoop {p : Reader Stmt} (hp : P p) : P (Reader.forLoop p) :=
  h.bind (h.expect _) fun _ => h.bind h.initializer fun _ =>
    h.bind (h.optionalBefore _ h.expression) fun _ => h.bind (h.expect _) fun _ =>
      h.bind (h.optionalBefore _ h.expression) fun _ => h.bind (h.expect _) fun _ =>
        h.bind hp fun _ => h.pure _

theorem statementOf {p : Reader Stmt} (hp : P p) (takes : Takes p) (advances : Advances p) :
    P (Reader.statementOf p) := by
  refine h.branch ⟨_, h.expressionStatement, rfl⟩ fun t => ?_
  simp only [Reader.statementOf]
  split
  case h_1 => exact ⟨_, h.printed, .inl fun _ => rfl⟩
  case h_2 hk =>
    refine ⟨_, h.braced (h.declaration hp) (takes_declaration takes)
      (advances_declaration advances), .inr fun rest => ?_⟩
    rw [Reader.braced, bind_of_clean (take_clean_iff.2 ⟨rfl, hk⟩)]
  case h_3 => exact ⟨_, h.conditional hp, .inl fun _ => rfl⟩
  case h_4 => exact ⟨_, h.whileLoop hp, .inl fun _ => rfl⟩
  case h_5 => exact ⟨_, h.forLoop hp, .inl fun _ => rfl⟩
  case h_6 => exact ⟨_, h.expressionStatement, .inr fun _ => rfl⟩

theorem statementWithin (n : Nat) : P (Reader.statementWithin n) := by
  induction n with
  | zero => exact h.fail (by simp)
  | succ n ih => exact h.statementOf ih (takes_statementWithin n) (advances_statementWithin n)

theorem statement : P Reader.statement := h.within h.statementWithin statementWithin_eq

end Pervasive

/-- How readers finish: `N` is a property of all readers, `S` one of readers that finish well, and
`W` one of readers that finish well and take a token. What takes a token decides for the readers
before it. -/
structure Finishing (N S W : {α : Type} → Reader α → Prop) : Prop where
  pervasive : Pervasive N
  blockBody : ∀ {one : Reader Stmt}, N one → Takes one → Advances one → N (blockBody one)
  pure : ∀ {α : Type} (value : α), S (Pure.pure value : Reader α)
  bind : ∀ {α β : Type} {p : Reader α} {f : α → Reader β}, S p → (∀ a, S (f a)) → S (p >>= f)
  weaken : ∀ {α : Type} {p : Reader α}, W p → S p
  fail : ∀ {α : Type} {problem : Problem}, W (fail problem : Reader α)
  expect : ∀ piece : Piece, W (expect piece)
  first : ∀ {α β : Type} {p : Reader α} {f : α → Reader β}, W p → (∀ a, S (f a)) → W (p >>= f)
  last : ∀ {α β : Type} {p : Reader α} {f : α → Reader β}, N p → (∀ a, W (f a)) → W (p >>= f)
  branch : ∀ {α : Type} {p : Reader α}, (∃ q : Reader α, W q ∧ p [] = q []) →
    (∀ t, ∃ q : Reader α, W q ∧
      ((∀ rest, p (t :: rest) = q rest) ∨ ∀ rest, p (t :: rest) = q (t :: rest))) → W p
  within : ∀ {α : Type} {within : Nat → Reader α} {p : Reader α}, (∀ n, W (within n)) →
    (∀ {n : Nat} {tokens : List Token}, tokens.length ≤ n → within n tokens = p tokens) → W p

namespace Finishing

variable {N S W : {α : Type} → Reader α → Prop} (h : Finishing N S W)

include h

/-- A piece of punctuation at the end decides for what is read before it. -/
theorem bind_expect {α β : Type} {p : Reader α} (hp : N p) (piece : Piece) (f : α → β) :
    W (do
      let a ← p
      Reader.expect piece
      return f a : Reader β) :=
  h.last hp fun _ => h.first (h.expect piece) fun _ => h.pure _

theorem declaredVariable : W Reader.declaredVariable :=
  h.last (h.pervasive.take _ (by simp)) fun _ => h.bind_expect h.pervasive.initialValue _ _

theorem printed : W Reader.printed := h.bind_expect h.pervasive.expression _ _

theorem expressionStatement : W Reader.expressionStatement :=
  h.bind_expect h.pervasive.expression _ _

variable {p : Reader Stmt} (hp : W p)

include hp

theorem declaration : W (Reader.declaration p) := by
  refine h.last (h.pervasive.take? _) fun word => ?_
  cases word with
  | none => exact hp
  | some _ => exact h.declaredVariable

/-- A conditional without an `else` is the one statement that may go on. -/
theorem conditional (other : S (Reader.take? .elseWord)) : W (Reader.conditional p) := by
  refine h.last (h.pervasive.expect _) fun _ => h.last h.pervasive.expression fun _ =>
    h.last (h.pervasive.expect _) fun _ => h.first hp fun _ => h.bind other fun word => ?_
  cases word with
  | none => exact h.pure _
  | some _ => exact h.bind (h.weaken hp) fun _ => h.pure _

theorem whileLoop : W (Reader.whileLoop p) :=
  h.last (h.pervasive.expect _) fun _ => h.last h.pervasive.expression fun _ =>
    h.last (h.pervasive.expect _) fun _ => h.first hp fun _ => h.pure _

theorem forLoop : W (Reader.forLoop p) :=
  h.last (h.pervasive.expect _) fun _ => h.last h.pervasive.initializer fun _ =>
    h.last (h.pervasive.optionalBefore _ h.pervasive.expression) fun _ =>
      h.last (h.pervasive.expect _) fun _ =>
        h.last (h.pervasive.optionalBefore _ h.pervasive.expression) fun _ =>
          h.last (h.pervasive.expect _) fun _ => h.first hp fun _ => h.pure _

theorem statementOf (hn : N p) (takes : Takes p) (advances : Advances p)
    (other : S (Reader.take? .elseWord)) : W (Reader.statementOf p) := by
  refine h.branch ⟨_, h.expressionStatement, rfl⟩ fun t => ?_
  simp only [Reader.statementOf]
  split
  · exact ⟨_, h.printed, .inl fun _ => rfl⟩
  · exact ⟨_, h.bind_expect (h.blockBody (h.pervasive.declaration hn) (takes_declaration takes)
      (advances_declaration advances)) _ _, .inl fun _ => rfl⟩
  · exact ⟨_, h.conditional hp other, .inl fun _ => rfl⟩
  · exact ⟨_, h.whileLoop hp, .inl fun _ => rfl⟩
  · exact ⟨_, h.forLoop hp, .inl fun _ => rfl⟩
  · exact ⟨_, h.expressionStatement, .inr fun _ => rfl⟩

omit hp

theorem statementWithin (other : S (Reader.take? .elseWord)) (n : Nat) :
    W (Reader.statementWithin n) := by
  induction n with
  | zero => exact h.fail
  | succ n ih =>
      exact h.statementOf ih (h.pervasive.statementWithin n) (takes_statementWithin n)
        (advances_statementWithin n) other

theorem statement (other : S (Reader.take? .elseWord)) : W Reader.statement :=
  h.within (h.statementWithin other) statementWithin_eq

end Finishing

end Reader
end Lox
