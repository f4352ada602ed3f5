import Lox.Phrase.Bound
import Lox.Proofs.Relabel.Tree

/-!
Reading looks at the kinds of tokens only. Tokens with other texts and on other lines are read in
the same way, faults included, as the trees with those texts as names and in strings and with those
lines.
-/

namespace Lox

def Reply.relabel {α β : Type} (ρ : Relabeling) (φ : α → β) : Reply α → Reply β
  | done value passed rest =>
      done (φ value) (passed.map (Fault.relabel ρ)) (rest.map (Token.relabel ρ))
  | failed fault passed rest =>
      failed (fault.relabel ρ) (passed.map (Fault.relabel ρ)) (rest.map (Token.relabel ρ))

namespace Reader

def Relabels {α β : Type} (ρ : Relabeling) (φ : α → β) (p : Reader α) (q : Reader β) : Prop :=
  ∀ tokens, q (tokens.map (Token.relabel ρ)) = (p tokens).relabel ρ φ

section

variable {ρ : Relabeling} {α β γ δ : Type} {φ : α → β} {ψ : γ → δ}

theorem relabels_pure {a : α} {b : β} (h : φ a = b) :
    Relabels ρ φ (Pure.pure a) (Pure.pure b) := by
  intro tokens
  rw [pure_apply, pure_apply, ← h]
  rfl

theorem relabels_bind {p : Reader α} {q : Reader β} {f : α → Reader γ} {g : β → Reader δ}
    (h : Relabels ρ φ p q) (hf : ∀ a, Relabels ρ ψ (f a) (g (φ a))) :
    Relabels ρ ψ (p >>= f) (q >>= g) := by
  intro tokens
  rw [bind_apply, bind_apply, h tokens]
  cases p tokens with
  | failed fault passed rest => rfl
  | done a passed rest =>
      simp only [Reply.relabel]
      rw [hf a rest]
      cases f a rest <;> simp [Reply.relabel, Reply.after]

theorem relabels_map {p : Reader α} {q : Reader β} {f : α → γ} {g : β → δ}
    (h : Relabels ρ φ p q) (hf : ∀ a, ψ (f a) = g (φ a)) :
    Relabels ρ ψ (f <$> p) (g <$> q) :=
  relabels_bind h fun a => relabels_pure (hf a)

theorem relabels_fail (problem : Problem) :
    Relabels ρ φ (fail problem : Reader α) (fail problem : Reader β) := by
  intro tokens
  cases tokens <;> rfl

theorem relabels_pass (fault : Fault) : Relabels ρ id (pass fault) (pass (fault.relabel ρ)) :=
  fun _ => rfl

theorem relabels_peek : Relabels ρ id peek peek := by
  intro tokens
  cases tokens <;> rfl

theorem relabels_take? (kind : Kind) :
    Relabels ρ (Option.map (Token.relabel ρ)) (take? kind) (take? kind) := by
  intro tokens
  cases tokens with
  | nil => rfl
  | cons t rest =>
      by_cases h : t.kind = kind
      · simp [take?, Token.relabel, Reply.relabel, h]
      · simp [take?, Token.relabel, Reply.relabel, h]

theorem relabels_take (kind : Kind) (problem : Problem) :
    Relabels ρ (Token.relabel ρ) (take kind problem) (take kind problem) := by
  intro tokens
  cases tokens with
  | nil => rfl
  | cons t rest =>
      by_cases h : t.kind = kind
      · simp [take, Token.relabel, Reply.relabel, h]
      · simp [take, fail, Fault.relabel, Token.relabel, Reply.relabel, h]

theorem relabels_expect (piece : Piece) : Relabels ρ id (expect piece) (expect piece) := by
  intro tokens
  rw [expect, expect, relabels_take]
  cases take piece.kind (.missing piece) tokens <;> rfl

theorem relabels_optionalBefore (kind : Kind) {p : Reader α} {q : Reader β}
    (h : Relabels ρ φ p q) :
    Relabels ρ (Option.map φ) (optionalBefore kind p) (optionalBefore kind q) := by
  refine relabels_bind relabels_peek fun next => ?_
  simp only [id]
  split
  · exact relabels_pure rfl
  · exact relabels_bind h fun a => relabels_pure rfl

end

section expression

variable {ρ : Relabeling} {p q : Reader Expr}

theorem relabels_primary (h : Relabels ρ (Expr.relabel ρ) p p) :
    Relabels ρ (Expr.relabel ρ) (primary p) (primary p) := by
  intro tokens
  cases tokens with
  | nil => rfl
  | cons t rest =>
      have parens : Relabels ρ (Expr.relabel ρ)
          (do let e ← p; expect .parenAfterExpression; return .grouping e)
          (do let e ← p; expect .parenAfterExpression; return .grouping e) :=
        relabels_bind h fun e => relabels_bind (relabels_expect _) fun _ => relabels_pure rfl
      have literal : (t.literal.map (Value.relabel ρ)).getD .nil =
          (t.literal.getD .nil).relabel ρ := Option.getD_map (Value.relabel ρ) .nil t.literal
      simp only [primary, List.map_cons, Token.relabel, literal]
      split
      case h_7 => exact parens rest
      all_goals rfl

theorem relabels_signed (h : Relabels ρ (Expr.relabel ρ) p p) (n : Nat) :
    Relabels ρ (Expr.relabel ρ) (signed p n) (signed p n) := by
  induction n with
  | zero => exact h
  | succ n ih =>
      intro tokens
      cases tokens with
      | nil => exact h []
      | cons t rest =>
          simp only [signed, List.map_cons, Token.kind_relabel]
          cases UnaryOp.ofKind? t.kind with
          | none => exact h (t :: rest)
          | some op =>
              have operand : Relabels ρ (Expr.relabel ρ)
                  (do let e ← signed p n; return .unary op t.line e)
                  (do let e ← signed p n; return .unary op (ρ.line t.line) e) :=
                relabels_bind ih fun e => relabels_pure rfl
              exact operand rest

theorem relabels_chain (h : Relabels ρ (Expr.relabel ρ) p p) (rank n : Nat) (left : Expr) :
    Relabels ρ (Expr.relabel ρ) (chain p rank n left) (chain p rank n (left.relabel ρ)) := by
  induction n generalizing left with
  | zero => exact relabels_pure rfl
  | succ n ih =>
      intro tokens
      cases tokens with
      | nil => rfl
      | cons t rest =>
          simp only [chain, List.map_cons, Token.kind_relabel]
          cases Connective.ofKindAt? rank t.kind with
          | none => exact relabels_pure rfl (t :: rest)
          | some c =>
              refine relabels_bind h (fun right => ?_) rest
              have more := ih (c.join t.line left right)
              rwa [Connective.relabel_join] at more

theorem relabels_ranked (h : Relabels ρ (Expr.relabel ρ) p p) (n rank : Nat) :
    Relabels ρ (Expr.relabel ρ) (ranked p n rank) (ranked p n rank) := by
  induction rank with
  | zero => exact h
  | succ rank ih => exact relabels_bind ih fun left => relabels_chain ih (rank + 1) n left

theorem relabels_assignment (h : Relabels ρ (Expr.relabel ρ) p p)
    (hv : Relabels ρ (Expr.relabel ρ) q q) :
    Relabels ρ (Expr.relabel ρ) (assignment p q) (assignment p q) := by
  refine relabels_bind h fun target => relabels_bind (relabels_take? _) fun equals => ?_
  cases equals with
  | none => exact relabels_pure rfl
  | some t =>
      refine relabels_bind hv fun v => ?_
      cases target with
      | var name line => exact relabels_pure rfl
      | _ => exact relabels_bind (relabels_pass _) fun _ => relabels_pure rfl

theorem relabels_expressionWithin (n : Nat) :
    Relabels ρ (Expr.relabel ρ) (expressionWithin n) (expressionWithin n) := by
  induction n with
  | zero => exact relabels_fail _
  | succ n ih =>
      exact relabels_assignment (relabels_ranked (relabels_signed (relabels_primary ih) _) _ _) ih

theorem relabels_expression : Relabels ρ (Expr.relabel ρ) expression expression := by
  intro tokens
  rw [expression, List.length_map]
  exact relabels_expressionWithin tokens.length tokens

end expression

section statement

variable {ρ : Relabeling} {p : Reader Stmt}

theorem relabels_initialValue :
    Relabels ρ (Option.map (Expr.relabel ρ)) initialValue initialValue := by
  refine relabels_bind (relabels_take? _) fun equals => ?_
  cases equals with
  | none => exact relabels_pure rfl
  | some _ => exact relabels_map relabels_expression fun _ => rfl

theorem relabels_declaredVariable :
    Relabels ρ (Stmt.relabel ρ) declaredVariable declaredVariable :=
  relabels_bind (relabels_take _ _) fun _ => relabels_bind relabels_initialValue fun _ =>
    relabels_bind (relabels_expect _) fun _ => relabels_pure rfl

theorem relabels_printed : Relabels ρ (Stmt.relabel ρ) printed printed :=
  relabels_bind relabels_expression fun _ => relabels_bind (relabels_expect _) fun _ =>
    relabels_pure rfl

theorem relabels_expressionStatement :
    Relabels ρ (Stmt.relabel ρ) expressionStatement expressionStatement :=
  relabels_bind relabels_expression fun _ => relabels_bind (relabels_expect _) fun _ =>
    relabels_pure rfl

theorem relabels_declaration (h : Relabels ρ (Stmt.relabel ρ) p p) :
    Relabels ρ (Stmt.relabel ρ) (declaration p) (declaration p) := by
  refine relabels_bind (relabels_take? _) fun word => ?_
  cases word with
  | none => exact h
  | some _ => exact relabels_declaredVariable

theorem resume_map (tokens : List Token) :
    resume (tokens.map (Token.relabel ρ)) = (resume tokens).map (Token.relabel ρ) := by
  fun_induction resume tokens with
  | case1 => rfl
  | case2 t rest h =>
      rw [List.map_cons, resume.eq_def]
      exact if_pos h
  | case3 t h => simp [resume, h]
  | case4 t h u more hu => simp [resume, h, hu]
  | case5 t h u more hu ih =>
      rw [← ih]
      simp [resume, h, hu]

def Declarations.relabel (ρ : Relabeling) (d : Declarations) : Declarations where
  statements := d.statements.map (Stmt.relabel ρ)
  passed := d.passed.map (Fault.relabel ρ)
  rest := d.rest.map (Token.relabel ρ)

theorem declarationsWithin_relabel (h : Relabels ρ (Stmt.relabel ρ) p p) (close : Kind) (n : Nat)
    (found : List Stmt) (passed : List Fault) (tokens : List Token) :
    declarationsWithin p close n (found.map (Stmt.relabel ρ)) (passed.map (Fault.relabel ρ))
        (tokens.map (Token.relabel ρ)) =
      (declarationsWithin p close n found passed tokens).relabel ρ := by
  induction n generalizing found passed tokens with
  | zero => simp [declarationsWithin, Declarations.relabel]
  | succ n ih =>
      cases tokens with
      | nil => simp [declarationsWithin, Declarations.relabel]
      | cons t rest =>
          have read := h (t :: rest)
          simp only [declarationsWithin, List.map_cons] at read ⊢
          rw [read]
          by_cases hk : t.kind = close
          · simp [Token.relabel, Declarations.relabel, hk]
          · cases hp : p (t :: rest) with
            | done s more left =>
                have next := ih (s :: found) (more.reverse ++ passed) left
                simpa [Token.relabel, Reply.relabel, hk] using next
            | failed fault more left =>
                have next := ih found (fault :: more.reverse ++ passed) (resume left)
                simpa [Token.relabel, Reply.relabel, resume_map, hk] using next

theorem declarations_relabel (h : Relabels ρ (Stmt.relabel ρ) p p) (close : Kind)
    (tokens : List Token) :
    declarations p close (tokens.map (Token.relabel ρ)) =
      (declarations p close tokens).relabel ρ := by
  rw [declarations, List.length_map]
  exact declarationsWithin_relabel h close tokens.length [] [] tokens

theorem relabels_block (h : Relabels ρ (Stmt.relabel ρ) p p) :
    Relabels ρ (Stmt.relabel ρ) (block p) (block p) := by
  have body : Relabels ρ (List.map (Stmt.relabel ρ)) (blockBody p) (blockBody p) := by
    intro tokens
    rw [blockBody, declarations_relabel h]
    rfl
  exact relabels_bind body fun body => relabels_bind (relabels_expect _) fun _ =>
    relabels_pure (congrArg Stmt.block (Stmt.relabelAll_eq ρ body))

theorem relabels_conditional (h : Relabels ρ (Stmt.relabel ρ) p p) :
    Relabels ρ (Stmt.relabel ρ) (conditional p) (conditional p) := by
  refine relabels_bind (relabels_expect _) fun _ => relabels_bind relabels_expression fun _ =>
    relabels_bind (relabels_expect _) fun _ => relabels_bind h fun _ =>
      relabels_bind (relabels_take? _) fun word => ?_
  cases word with
  | none => exact relabels_pure rfl
  | some _ => exact relabels_bind h fun _ => relabels_pure rfl

theorem relabels_whileLoop (h : Relabels ρ (Stmt.relabel ρ) p p) :
    Relabels ρ (Stmt.relabel ρ) (whileLoop p) (whileLoop p) :=
  relabels_bind (relabels_expect _) fun _ => relabels_bind relabels_expression fun _ =>
    relabels_bind (relabels_expect _) fun _ => relabels_bind h fun _ => relabels_pure rfl

theorem relabels_initializer :
    Relabels ρ (Option.map (Stmt.relabel ρ)) initializer initializer := by
  refine relabels_bind (relabels_take? _) fun semicolon => ?_
  cases semicolon with
  | some _ => exact relabels_pure rfl
  | none => exact relabels_map (relabels_declaration relabels_expressionStatement) fun _ => rfl

theorem relabels_forLoop (h : Relabels ρ (Stmt.relabel ρ) p p) :
    Relabels ρ (Stmt.relabel ρ) (forLoop p) (forLoop p) :=
  relabels_bind (relabels_expect _) fun _ => relabels_bind relabels_initializer fun first =>
    relabels_bind (relabels_optionalBefore _ relabels_expression) fun condition =>
      relabels_bind (relabels_expect _) fun _ =>
        relabels_bind (relabels_optionalBefore _ relabels_expression) fun increment =>
          relabels_bind (relabels_expect _) fun _ => relabels_bind h fun body =>
            relabels_pure (Stmt.relabel_forLoop ρ first condition increment body)

theorem relabels_statementOf (h : Relabels ρ (Stmt.relabel ρ) p p) :
    Relabels ρ (Stmt.relabel ρ) (statementOf p) (statementOf p) := by
  intro tokens
  cases tokens with
  | nil => exact relabels_expressionStatement []
  | cons t rest =>
      simp only [statementOf, List.map_cons, Token.kind_relabel]
      split
      · exact relabels_printed rest
      · exact relabels_block (relabels_declaration h) rest
      · exact relabels_conditional h rest
      · exact relabels_whileLoop h rest
      · exact relabels_forLoop h rest
      · exact relabels_expressionStatement (t :: rest)

theorem relabels_statement : Relabels ρ (Stmt.relabel ρ) statement statement := by
  have within (n : Nat) : Relabels ρ (Stmt.relabel ρ) (statementWithin n) (statementWithin n) := by
    induction n with
    | zero => exact relabels_fail _
    | succ n ih => exact relabels_statementOf ih
  intro tokens
  rw [statement, List.length_map]
  exact within tokens.length tokens

end statement
end Reader

namespace Program

variable (ρ : Relabeling) (tokens : List Token)

theorem body_relabel :
    body (tokens.map (Token.relabel ρ)) = (body tokens).map (Token.relabel ρ) := by
  rw [body, List.takeWhile_map]
  rfl

theorem lineOfEnd_relabel (h : tokens ≠ []) :
    lineOfEnd (tokens.map (Token.relabel ρ)) = ρ.line (lineOfEnd tokens) := by
  have found : (tokens.map (Token.relabel ρ)).find? (·.kind == .eof) =
      (tokens.find? (·.kind == .eof)).map (Token.relabel ρ) := List.find?_map ..
  rw [lineOfEnd, lineOfEnd, found, List.getLast?_map]
  cases tokens.find? (·.kind == .eof) with
  | some t => rfl
  | none =>
      rw [List.getLast?_eq_some_getLast h]
      rfl

/-- Tokens with other labels are read as the same program with those labels. -/
theorem ofTokens_relabel (h : tokens ≠ []) :
    ofTokens (tokens.map (Token.relabel ρ)) =
      ⟨(ofTokens tokens).statements.map (Stmt.relabel ρ),
        (ofTokens tokens).faults.map (Fault.relabel ρ), ρ.line (ofTokens tokens).endLine⟩ := by
  have read := Reader.declarations_relabel (ρ := ρ)
    (Reader.relabels_declaration Reader.relabels_statement) .eof (body tokens)
  rw [ofTokens, body_relabel, read, lineOfEnd_relabel ρ tokens h]
  rfl

end Program
end Lox
