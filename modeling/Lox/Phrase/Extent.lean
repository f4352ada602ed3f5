import Lox.Phrase.Program

/-!
How much readers take. A reader gives back tokens from the end of its list, and one that has to find
a piece of punctuation or a name gives back fewer than it was given.
-/

namespace Lox

namespace Reply

variable {α : Type}

@[simp]
theorem rest_after (earlier : List Fault) (r : Reply α) : (r.after earlier).rest = r.rest := by
  cases r <;> rfl

end Reply

namespace Reader

variable {α β : Type}

/-- A reader that gives back tokens from the end of its list. -/
def Takes (p : Reader α) : Prop := ∀ tokens, (p tokens).rest <:+ tokens

theorem Takes.length_le {p : Reader α} (h : Takes p) {tokens rest : List Token} {value : α}
    {passed : List Fault} (hp : p tokens = .done value passed rest) :
    rest.length ≤ tokens.length := by
  have := (h tokens).length_le
  rwa [hp] at this

theorem takes_pure (value : α) : Takes (Pure.pure value) := fun _ => List.suffix_rfl

theorem takes_fail (problem : Problem) : Takes (fail problem : Reader α) :=
  fun _ => List.suffix_rfl

theorem takes_pass (fault : Fault) : Takes (pass fault) := fun _ => List.suffix_rfl

theorem takes_bind {p : Reader α} {f : α → Reader β} (hp : Takes p) (hf : ∀ a, Takes (f a)) :
    Takes (p >>= f) := by
  intro tokens
  have h := hp tokens
  rw [bind_apply]
  cases hc : p tokens with
  | done value passed rest =>
      rw [hc] at h
      simpa using (hf value rest).trans h
  | failed fault passed rest => rwa [hc] at h

theorem takes_map {p : Reader α} (f : α → β) (hp : Takes p) : Takes (f <$> p) :=
  takes_bind hp fun _ => takes_pure _

theorem takes_peek : Takes peek := fun _ => List.suffix_rfl

theorem takes_take? (kind : Kind) : Takes (take? kind) := by
  intro tokens
  cases tokens with
  | nil => exact List.suffix_rfl
  | cons t rest =>
      simp only [take?]
      split
      · exact List.suffix_cons t rest
      · exact List.suffix_rfl

theorem takes_take (kind : Kind) (problem : Problem) : Takes (take kind problem) := by
  intro tokens
  cases tokens with
  | nil => exact List.suffix_rfl
  | cons t rest =>
      simp only [take]
      split
      · exact List.suffix_cons t rest
      · exact List.suffix_rfl

theorem takes_expect (piece : Piece) : Takes (expect piece) := by
  intro tokens
  have h := takes_take piece.kind (.missing piece) tokens
  simp only [expect]
  cases hc : take piece.kind (.missing piece) tokens with
  | done value passed rest | failed fault passed rest => rwa [hc] at h

theorem takes_optionalBefore (kind : Kind) {p : Reader α} (hp : Takes p) :
    Takes (optionalBefore kind p) := by
  refine takes_bind takes_peek fun next => ?_
  split
  · exact takes_pure _
  · exact takes_bind hp fun _ => takes_pure _

theorem takes_primary {inner : Reader Expr} (h : Takes inner) : Takes (primary inner) := by
  intro tokens
  cases tokens with
  | nil => exact List.suffix_rfl
  | cons t rest =>
      have hg : Takes (do
          let e ← inner
          expect .parenAfterExpression
          return .grouping e : Reader Expr) :=
        takes_bind h fun _ => takes_bind (takes_expect _) fun _ => takes_pure _
      simp only [primary]
      split
      case h_7 => exact (hg rest).trans (List.suffix_cons t rest)
      case h_8 => exact List.suffix_rfl
      all_goals exact List.suffix_cons t rest

theorem takes_signed {unsigned : Reader Expr} (h : Takes unsigned) (n : Nat) :
    Takes (signed unsigned n) := by
  induction n with
  | zero => exact h
  | succ n ih =>
      intro tokens
      cases tokens with
      | nil => exact h []
      | cons t rest =>
          simp only [signed]
          split
          · exact h (t :: rest)
          · exact (takes_bind ih (fun _ => takes_pure _) rest).trans (List.suffix_cons t rest)

theorem takes_chain {operand : Reader Expr} (h : Takes operand) (rank n : Nat) (left : Expr) :
    Takes (chain operand rank n left) := by
  induction n generalizing left with
  | zero => exact takes_pure left
  | succ n ih =>
      intro tokens
      cases tokens with
      | nil => exact List.suffix_rfl
      | cons t rest =>
          simp only [chain]
          split
          · exact List.suffix_rfl
          · exact (takes_bind h (fun _ => ih _) rest).trans (List.suffix_cons t rest)

theorem takes_ranked {operand : Reader Expr} (h : Takes operand) (n rank : Nat) :
    Takes (ranked operand n rank) := by
  induction rank with
  | zero => exact h
  | succ rank ih => exact takes_bind ih fun left => takes_chain ih (rank + 1) n left

theorem takes_assignment {left value : Reader Expr} (hl : Takes left) (hv : Takes value) :
    Takes (assignment left value) := by
  refine takes_bind hl fun target => takes_bind (takes_take? .equal) fun equals => ?_
  cases equals with
  | none => exact takes_pure _
  | some t =>
      refine takes_bind hv fun v => ?_
      split
      · exact takes_pure _
      · exact takes_bind (takes_pass _) fun _ => takes_pure _

theorem takes_expressionWithin (n : Nat) : Takes (expressionWithin n) := by
  induction n with
  | zero => exact takes_fail _
  | succ n ih => exact takes_assignment (takes_ranked (takes_signed (takes_primary ih) _) _ _) ih

theorem takes_expression : Takes expression := fun tokens => takes_expressionWithin _ tokens

theorem resume_suffix (tokens : List Token) : resume tokens <:+ tokens := by
  fun_induction resume tokens with
  | case1 => exact List.suffix_rfl
  | case2 t rest => exact List.suffix_cons t rest
  | case3 t => exact List.suffix_cons t []
  | case4 t _ u more => exact List.suffix_cons t (u :: more)
  | case5 t _ u more _ ih => exact ih.trans (List.suffix_cons t (u :: more))

theorem takes_initialValue : Takes initialValue := by
  refine takes_bind (takes_take? _) fun equals => ?_
  cases equals with
  | none => exact takes_pure _
  | some _ => exact takes_map _ takes_expression

theorem takes_declaredVariable : Takes declaredVariable :=
  takes_bind (takes_take _ _) fun _ => takes_bind takes_initialValue fun _ =>
    takes_bind (takes_expect _) fun _ => takes_pure _

theorem takes_printed : Takes printed :=
  takes_bind takes_expression fun _ => takes_bind (takes_expect _) fun _ => takes_pure _

theorem takes_expressionStatement : Takes expressionStatement :=
  takes_bind takes_expression fun _ => takes_bind (takes_expect _) fun _ => takes_pure _

theorem takes_declaration {p : Reader Stmt} (h : Takes p) : Takes (declaration p) := by
  refine takes_bind (takes_take? _) fun word => ?_
  cases word with
  | none => exact h
  | some _ => exact takes_declaredVariable

theorem declarationsWithin_rest {one : Reader Stmt} (h : Takes one) (close : Kind) (n : Nat)
    (found : List Stmt) (passed : List Fault) (tokens : List Token) :
    (declarationsWithin one close n found passed tokens).rest <:+ tokens := by
  induction n generalizing found passed tokens with
  | zero => exact List.suffix_rfl
  | succ n ih =>
      cases tokens with
      | nil => exact List.suffix_rfl
      | cons t rest =>
          have ho := h (t :: rest)
          simp only [declarationsWithin]
          split
          · exact List.suffix_rfl
          · cases hc : one (t :: rest) with
            | done s more left =>
                rw [hc] at ho
                exact (ih _ _ left).trans ho
            | failed fault more left =>
                rw [hc] at ho
                exact (ih _ _ (resume left)).trans ((resume_suffix left).trans ho)

theorem takes_blockBody {one : Reader Stmt} (h : Takes one) : Takes (blockBody one) :=
  fun tokens => declarationsWithin_rest h _ tokens.length [] [] tokens

theorem takes_block {one : Reader Stmt} (h : Takes one) : Takes (block one) :=
  takes_bind (takes_blockBody h) fun _ => takes_bind (takes_expect _) fun _ => takes_pure _

theorem takes_conditional {p : Reader Stmt} (h : Takes p) : Takes (conditional p) := by
  refine takes_bind (takes_expect _) fun _ => takes_bind takes_expression fun _ =>
    takes_bind (takes_expect _) fun _ => takes_bind h fun _ =>
      takes_bind (takes_take? _) fun word => ?_
  cases word with
  | none => exact takes_pure _
  | some _ => exact takes_bind h fun _ => takes_pure _

theorem takes_whileLoop {p : Reader Stmt} (h : Takes p) : Takes (whileLoop p) :=
  takes_bind (takes_expect _) fun _ => takes_bind takes_expression fun _ =>
    takes_bind (takes_expect _) fun _ => takes_bind h fun _ => takes_pure _

theorem takes_initializer : Takes initializer := by
  refine takes_bind (takes_take? _) fun semicolon => ?_
  cases semicolon with
  | some _ => exact takes_pure _
  | none => exact takes_map _ (takes_declaration takes_expressionStatement)

theorem takes_forLoop {p : Reader Stmt} (h : Takes p) : Takes (forLoop p) :=
  takes_bind (takes_expect _) fun _ => takes_bind takes_initializer fun _ =>
    takes_bind (takes_optionalBefore _ takes_expression) fun _ =>
      takes_bind (takes_expect _) fun _ =>
        takes_bind (takes_optionalBefore _ takes_expression) fun _ =>
          takes_bind (takes_expect _) fun _ => takes_bind h fun _ => takes_pure _

theorem takes_statementOf {p : Reader Stmt} (h : Takes p) : Takes (statementOf p) := by
  intro tokens
  cases tokens with
  | nil => exact takes_expressionStatement []
  | cons t rest =>
      simp only [statementOf]
      split
      · exact (takes_printed rest).trans (List.suffix_cons t rest)
      · exact (takes_block (takes_declaration h) rest).trans (List.suffix_cons t rest)
      · exact (takes_conditional h rest).trans (List.suffix_cons t rest)
      · exact (takes_whileLoop h rest).trans (List.suffix_cons t rest)
      · exact (takes_forLoop h rest).trans (List.suffix_cons t rest)
      · exact takes_expressionStatement (t :: rest)

theorem takes_statementWithin (n : Nat) : Takes (statementWithin n) := by
  induction n with
  | zero => exact takes_fail _
  | succ n ih => exact takes_statementOf ih

theorem takes_statement : Takes statement := fun tokens => takes_statementWithin _ tokens

/-- A reader that takes at least one token when it succeeds. -/
def Advances (p : Reader α) : Prop :=
  ∀ tokens value passed rest, p tokens = .done value passed rest → rest.length < tokens.length

theorem advances_take (kind : Kind) (problem : Problem) : Advances (take kind problem) := by
  intro tokens value passed rest h
  cases tokens with
  | nil => simp [take, fail] at h
  | cons t more =>
      simp only [take] at h
      split at h
      · cases h
        exact Nat.lt_succ_self _
      · simp [fail] at h

theorem advances_expect (piece : Piece) : Advances (expect piece) := by
  intro tokens value passed rest h
  simp only [expect] at h
  cases hc : take piece.kind (.missing piece) tokens with
  | done t before left =>
      rw [hc] at h
      cases h
      exact advances_take _ _ _ _ _ _ hc
  | failed fault before left => simp [hc] at h

theorem done_of_bind {p : Reader α} {f : α → Reader β} {tokens rest : List Token} {value : β}
    {passed : List Fault} (h : (p >>= f) tokens = .done value passed rest) :
    ∃ a before left after, p tokens = .done a before left ∧ f a left = .done value after rest ∧
      passed = before ++ after := by
  rw [bind_apply] at h
  cases hc : p tokens with
  | failed fault before left => simp [hc] at h
  | done a before left =>
      rw [hc] at h
      simp only at h
      cases hf : f a left with
      | failed fault after rest => simp [hf, Reply.after] at h
      | done b after last =>
          simp only [hf, Reply.after, Reply.done.injEq] at h
          obtain ⟨rfl, rfl, rfl⟩ := h
          exact ⟨a, before, left, after, rfl, hf, rfl⟩

theorem advances_bind_left {p : Reader α} {f : α → Reader β} (hp : Advances p)
    (hf : ∀ a, Takes (f a)) : Advances (p >>= f) := by
  intro tokens value passed rest h
  obtain ⟨a, before, left, after, hl, hr, _⟩ := done_of_bind h
  exact Nat.lt_of_le_of_lt ((hf a).length_le hr) (hp _ _ _ _ hl)

theorem advances_bind_right {p : Reader α} {f : α → Reader β} (hp : Takes p)
    (hf : ∀ a, Advances (f a)) : Advances (p >>= f) := by
  intro tokens value passed rest h
  obtain ⟨a, before, left, after, hl, hr, _⟩ := done_of_bind h
  exact Nat.lt_of_lt_of_le (hf a _ _ _ _ hr) (hp.length_le hl)

theorem advances_expressionStatement : Advances expressionStatement :=
  advances_bind_right takes_expression fun _ =>
    advances_bind_left (advances_expect _) fun _ => takes_pure _

theorem advances_declaredVariable : Advances declaredVariable :=
  advances_bind_left (advances_take _ _) fun _ => takes_bind takes_initialValue fun _ =>
    takes_bind (takes_expect _) fun _ => takes_pure _

theorem advances_declaration {p : Reader Stmt} (h : Advances p) : Advances (declaration p) := by
  refine advances_bind_right (takes_take? _) fun word => ?_
  cases word with
  | none => exact h
  | some _ => exact advances_declaredVariable

theorem length_resume_lt {tokens : List Token} (h : tokens ≠ []) :
    (resume tokens).length < tokens.length := by
  fun_induction resume tokens with
  | case1 => exact absurd rfl h
  | case2 t rest => exact Nat.lt_succ_self _
  | case3 t => exact Nat.lt_succ_self _
  | case4 t _ u more => exact Nat.lt_succ_self _
  | case5 t _ u more _ ih => exact Nat.lt_succ_of_lt (ih (List.cons_ne_nil u more))

end Reader
end Lox
