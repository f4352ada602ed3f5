import Lox.Phrase.Extent

/-!
The bounds of the readers do not matter: a reader whose bound is not below the number of tokens
answers as every other such reader does. So expressions, statements and declarations are read as
their rules say, whatever is counted down on the way.
-/

namespace Lox
namespace Reader

variable {α β : Type}

/-- Two readers answer alike on at most `n` tokens. -/
def Agree (n : Nat) (p q : Reader α) : Prop := ∀ tokens, tokens.length ≤ n → p tokens = q tokens

theorem Agree.mono {n m : Nat} {p q : Reader α} (h : Agree n p q) (hm : m ≤ n) : Agree m p q :=
  fun tokens ht => h tokens (Nat.le_trans ht hm)

theorem agree_bind {n : Nat} {p q : Reader α} {f g : α → Reader β} (hp : Takes p)
    (h : Agree n p q) (hf : ∀ a, Agree n (f a) (g a)) : Agree n (p >>= f) (q >>= g) := by
  intro tokens hn
  rw [bind_apply, bind_apply, ← h tokens hn]
  cases hc : p tokens with
  | done value passed rest =>
      have := hp.length_le hc
      simp only [hf value rest (by omega)]
  | failed fault passed rest => rfl

theorem agree_primary {n : Nat} {p q : Reader Expr} (hp : Takes p)
    (h : ∀ m, m < n → Agree m p q) : Agree n (primary p) (primary q) := by
  intro tokens hn
  cases tokens with
  | nil => rfl
  | cons t rest =>
      simp only [primary]
      split
      case h_7 =>
        exact agree_bind hp (h rest.length hn) (fun _ _ _ => rfl) rest (Nat.le_refl _)
      all_goals rfl

theorem agree_signed {l n m : Nat} {p q : Reader Expr} (hp : Takes p) (h : Agree l p q)
    (hn : l ≤ n) (hm : l ≤ m) : Agree l (signed p n) (signed q m) := by
  induction n generalizing l m with
  | zero =>
      intro tokens ht
      obtain rfl : tokens = [] := List.eq_nil_of_length_eq_zero (by omega)
      cases m <;> exact h [] (Nat.zero_le _)
  | succ n ih =>
      intro tokens ht
      cases tokens with
      | nil => cases m <;> exact h [] (Nat.zero_le _)
      | cons t rest =>
          simp only [List.length_cons] at ht
          obtain ⟨m, rfl⟩ : ∃ k, m = k + 1 := ⟨m - 1, by omega⟩
          simp only [signed]
          split
          · exact h (t :: rest) ht
          · exact agree_bind (takes_signed hp n)
              (ih (h.mono (by omega : rest.length ≤ l)) (by omega) (by omega))
              (fun _ _ _ => rfl) rest (Nat.le_refl _)

theorem agree_chain {l n m rank : Nat} {p q : Reader Expr} (hp : Takes p) (h : Agree l p q)
    (hn : l ≤ n) (hm : l ≤ m) (left : Expr) :
    Agree l (chain p rank n left) (chain q rank m left) := by
  induction n generalizing l m left with
  | zero =>
      intro tokens ht
      obtain rfl : tokens = [] := List.eq_nil_of_length_eq_zero (by omega)
      cases m <;> rfl
  | succ n ih =>
      intro tokens ht
      cases tokens with
      | nil => cases m <;> rfl
      | cons t rest =>
          simp only [List.length_cons] at ht
          obtain ⟨m, rfl⟩ : ∃ k, m = k + 1 := ⟨m - 1, by omega⟩
          have hr : Agree rest.length p q := h.mono (by omega)
          simp only [chain]
          split
          · rfl
          · exact agree_bind hp hr (fun _ => ih hr (by omega) (by omega) _) rest (Nat.le_refl _)

theorem agree_ranked {l n m : Nat} {p q : Reader Expr} (hp : Takes p) (h : Agree l p q)
    (hn : l ≤ n) (hm : l ≤ m) (rank : Nat) : Agree l (ranked p n rank) (ranked q m rank) := by
  induction rank with
  | zero => exact h
  | succ rank ih =>
      exact agree_bind (takes_ranked hp n rank) ih
        fun left => agree_chain (takes_ranked hp n rank) ih hn hm left

theorem agree_assignment {n : Nat} {p q v w : Reader Expr} (hp : Takes p) (hv : Takes v)
    (h : Agree n p q) (hvw : ∀ m, m < n → Agree m v w) :
    Agree n (assignment p v) (assignment q w) := by
  refine agree_bind hp h fun target tokens ht => ?_
  cases tokens with
  | nil => rfl
  | cons t rest =>
      rw [bind_apply, bind_apply]
      simp only [take?]
      by_cases hk : t.kind = .equal
      · simp only [hk, if_true]
        exact congrArg (Reply.after []) (agree_bind hv (hvw rest.length ht)
          (fun _ _ _ => rfl) rest (Nat.le_refl _))
      · simp only [hk, if_false]

theorem agree_expressionWithin (l n m : Nat) (hn : l ≤ n) (hm : l ≤ m) :
    Agree l (expressionWithin n) (expressionWithin m) := by
  induction l using Nat.strongRecOn generalizing n m with
  | _ l ih =>
    cases l with
    | zero =>
        intro tokens ht
        obtain rfl : tokens = [] := List.eq_nil_of_length_eq_zero (by omega)
        cases n <;> cases m <;> rfl
    | succ l =>
        obtain ⟨n, rfl⟩ : ∃ k, n = k + 1 := ⟨n - 1, by omega⟩
        obtain ⟨m, rfl⟩ : ∃ k, m = k + 1 := ⟨m - 1, by omega⟩
        have hs : ∀ j, j < l + 1 → Agree j (expressionWithin n) (expressionWithin m) :=
          fun j hj => ih j hj n m (by omega) (by omega)
        have ht := takes_expressionWithin n
        have hp := takes_primary ht
        exact agree_assignment (takes_ranked (takes_signed hp _) _ _) ht
          (agree_ranked (takes_signed hp _) (agree_signed hp (agree_primary ht hs) hn hm) hn hm _)
          hs

theorem expressionWithin_eq {n : Nat} {tokens : List Token} (h : tokens.length ≤ n) :
    expressionWithin n tokens = expression tokens :=
  agree_expressionWithin tokens.length n tokens.length h (Nat.le_refl _) tokens (Nat.le_refl _)

/-- An expression is an assignment, or what can stand left of one, in terms of expressions again. -/
theorem expression_eq {n : Nat} {tokens : List Token} (h : tokens.length ≤ n) :
    expression tokens =
      assignment (ranked (signed (primary expression) n) n Connective.loosest) expression
        tokens := by
  cases n with
  | zero =>
      obtain rfl : tokens = [] := List.eq_nil_of_length_eq_zero (by omega)
      rfl
  | succ n =>
      rw [← expressionWithin_eq h]
      have hs : ∀ j, j < tokens.length → Agree j (expressionWithin n) expression :=
        fun j hj ts ht => expressionWithin_eq (by omega)
      have ht := takes_expressionWithin n
      have hp := takes_primary ht
      exact agree_assignment (takes_ranked (takes_signed hp _) _ _) ht
        (agree_ranked (takes_signed hp _) (agree_signed hp (agree_primary ht hs) h h) h h _) hs
        tokens (Nat.le_refl _)

theorem Agree.refl (n : Nat) (p : Reader α) : Agree n p p := fun _ _ => rfl

theorem agree_declaration {n : Nat} {p q : Reader Stmt} (h : Agree n p q) :
    Agree n (declaration p) (declaration q) := by
  refine agree_bind (takes_take? _) (.refl _ _) fun word => ?_
  cases word with
  | none => exact h
  | some _ => exact .refl _ _

theorem declarationsWithin_congr {l : Nat} {p q : Reader Stmt} (hp : Takes p) (h : Agree l p q)
    (close : Kind) (n : Nat) (found : List Stmt) (passed : List Fault) {tokens : List Token}
    (hl : tokens.length ≤ l) :
    declarationsWithin p close n found passed tokens =
      declarationsWithin q close n found passed tokens := by
  induction n generalizing found passed tokens with
  | zero => rfl
  | succ n ih =>
      cases tokens with
      | nil => rfl
      | cons t rest =>
          have ho := (hp (t :: rest)).length_le
          simp only [declarationsWithin]
          split
          · rfl
          · rw [← h (t :: rest) hl]
            cases hc : p (t :: rest) with
            | done s more left =>
                rw [hc] at ho
                exact ih _ _ (Nat.le_trans ho hl)
            | failed fault more left =>
                rw [hc] at ho
                exact ih _ _
                  (Nat.le_trans (resume_suffix left).length_le (Nat.le_trans ho hl))

theorem agree_block {n : Nat} {p q : Reader Stmt} (hp : Takes p) (h : Agree n p q) :
    Agree n (block p) (block q) := by
  refine agree_bind (takes_blockBody hp) (fun tokens hn => ?_) fun _ => .refl _ _
  simp only [blockBody, declarations, declarationsWithin_congr hp h _ tokens.length [] [] hn]

theorem agree_conditional {n : Nat} {p q : Reader Stmt} (hp : Takes p) (h : Agree n p q) :
    Agree n (conditional p) (conditional q) := by
  refine agree_bind (takes_expect _) (.refl _ _) fun _ => agree_bind takes_expression (.refl _ _)
    fun _ => agree_bind (takes_expect _) (.refl _ _) fun _ => agree_bind hp h
      fun _ => agree_bind (takes_take? _) (.refl _ _) fun word => ?_
  cases word with
  | none => exact .refl _ _
  | some _ => exact agree_bind hp h fun _ => .refl _ _

theorem agree_whileLoop {n : Nat} {p q : Reader Stmt} (hp : Takes p) (h : Agree n p q) :
    Agree n (whileLoop p) (whileLoop q) :=
  agree_bind (takes_expect _) (.refl _ _) fun _ => agree_bind takes_expression (.refl _ _)
    fun _ => agree_bind (takes_expect _) (.refl _ _) fun _ => agree_bind hp h fun _ => .refl _ _

theorem agree_forLoop {n : Nat} {p q : Reader Stmt} (hp : Takes p) (h : Agree n p q) :
    Agree n (forLoop p) (forLoop q) :=
  agree_bind (takes_expect _) (.refl _ _) fun _ => agree_bind takes_initializer (.refl _ _)
    fun _ => agree_bind (takes_optionalBefore _ takes_expression) (.refl _ _)
      fun _ => agree_bind (takes_expect _) (.refl _ _)
        fun _ => agree_bind (takes_optionalBefore _ takes_expression) (.refl _ _)
          fun _ => agree_bind (takes_expect _) (.refl _ _)
            fun _ => agree_bind hp h fun _ => .refl _ _

theorem agree_statementOf {n : Nat} {p q : Reader Stmt} (hp : Takes p)
    (h : ∀ m, m < n → Agree m p q) : Agree n (statementOf p) (statementOf q) := by
  intro tokens hn
  cases tokens with
  | nil => rfl
  | cons t rest =>
      have hr : Agree rest.length p q := h rest.length hn
      simp only [statementOf]
      split
      · rfl
      · exact agree_block (takes_declaration hp) (agree_declaration hr) rest (Nat.le_refl _)
      · exact agree_conditional hp hr rest (Nat.le_refl _)
      · exact agree_whileLoop hp hr rest (Nat.le_refl _)
      · exact agree_forLoop hp hr rest (Nat.le_refl _)
      · rfl

theorem agree_statementWithin (l n m : Nat) (hn : l ≤ n) (hm : l ≤ m) :
    Agree l (statementWithin n) (statementWithin m) := by
  induction l using Nat.strongRecOn generalizing n m with
  | _ l ih =>
    cases l with
    | zero =>
        intro tokens ht
        obtain rfl : tokens = [] := List.eq_nil_of_length_eq_zero (by omega)
        cases n <;> cases m <;> rfl
    | succ l =>
        obtain ⟨n, rfl⟩ : ∃ k, n = k + 1 := ⟨n - 1, by omega⟩
        obtain ⟨m, rfl⟩ : ∃ k, m = k + 1 := ⟨m - 1, by omega⟩
        exact agree_statementOf (takes_statementWithin n)
          fun j hj => ih j hj n m (by omega) (by omega)

theorem statementWithin_eq {n : Nat} {tokens : List Token} (h : tokens.length ≤ n) :
    statementWithin n tokens = statement tokens :=
  agree_statementWithin tokens.length n tokens.length h (Nat.le_refl _) tokens (Nat.le_refl _)

/-- A statement, in terms of the statements that are parts of it. -/
theorem statement_eq (tokens : List Token) : statement tokens = statementOf statement tokens := by
  rw [← statementWithin_eq (Nat.le_succ tokens.length)]
  exact agree_statementOf (takes_statementWithin _)
    (fun m hm ts ht => statementWithin_eq (by omega)) tokens (Nat.le_refl _)

theorem advances_statementOf {p : Reader Stmt} (ht : Takes p) : Advances (statementOf p) := by
  intro tokens value passed rest h
  cases tokens with
  | nil => exact advances_expressionStatement _ _ _ _ h
  | cons t more =>
      simp only [statementOf] at h
      split at h
      · exact Nat.lt_succ_of_le (takes_printed.length_le h)
      · exact Nat.lt_succ_of_le ((takes_block (takes_declaration ht)).length_le h)
      · exact Nat.lt_succ_of_le ((takes_conditional ht).length_le h)
      · exact Nat.lt_succ_of_le ((takes_whileLoop ht).length_le h)
      · exact Nat.lt_succ_of_le ((takes_forLoop ht).length_le h)
      · exact advances_expressionStatement _ _ _ _ h

theorem advances_statementWithin (n : Nat) : Advances (statementWithin n) := by
  cases n with
  | zero => exact nofun
  | succ n => exact advances_statementOf (takes_statementWithin n)

theorem advances_statement : Advances statement := fun tokens =>
  advances_statementWithin tokens.length tokens

/-- Declarations after others and after faults passed over earlier. -/
def Declarations.after (found : List Stmt) (passed : List Fault) (d : Declarations) :
    Declarations :=
  ⟨found ++ d.statements, passed ++ d.passed, d.rest⟩

theorem declarationsWithin_after (one : Reader Stmt) (close : Kind) (n : Nat) (found : List Stmt)
    (passed : List Fault) (tokens : List Token) :
    declarationsWithin one close n found passed tokens =
      (declarationsWithin one close n [] [] tokens).after found.reverse passed.reverse := by
  induction n generalizing found passed tokens with
  | zero => simp [declarationsWithin, Declarations.after]
  | succ n ih =>
      cases tokens with
      | nil => simp [declarationsWithin, Declarations.after]
      | cons t rest =>
          simp only [declarationsWithin]
          split
          · simp [Declarations.after]
          · cases one (t :: rest) with
            | done s more left =>
                simp only
                rw [ih (s :: found), ih [s]]
                simp [Declarations.after]
            | failed fault more left =>
                simp only
                rw [ih found, ih [] (fault :: more.reverse ++ [])]
                simp [Declarations.after]

theorem length_resume_lt_of_failed {p : Reader α} (hp : Takes p) {tokens left : List Token}
    {fault : Fault} {passed : List Fault} (some : tokens ≠ [])
    (h : p tokens = .failed fault passed left) : (resume left).length < tokens.length := by
  have suffix := hp tokens
  rw [h] at suffix
  cases left with
  | nil => exact List.length_pos_iff.2 some
  | cons t rest =>
      exact Nat.lt_of_lt_of_le (length_resume_lt (List.cons_ne_nil t rest)) suffix.length_le

theorem declarationsWithin_bound {one : Reader Stmt} (ht : Takes one) (ha : Advances one)
    (close : Kind) {n m : Nat} (found : List Stmt) (passed : List Fault) {tokens : List Token}
    (hn : tokens.length ≤ n) (hm : tokens.length ≤ m) :
    declarationsWithin one close n found passed tokens =
      declarationsWithin one close m found passed tokens := by
  induction n generalizing m found passed tokens with
  | zero =>
      obtain rfl : tokens = [] := List.eq_nil_of_length_eq_zero (by omega)
      cases m <;> rfl
  | succ n ih =>
      cases tokens with
      | nil => cases m <;> rfl
      | cons t rest =>
          obtain ⟨m, rfl⟩ : ∃ k, m = k + 1 := ⟨m - 1, by simp only [List.length_cons] at hm; omega⟩
          simp only [declarationsWithin]
          split
          · rfl
          · cases hc : one (t :: rest) with
            | done s more left =>
                have := ha _ _ _ _ hc
                exact ih _ _ (by omega) (by omega)
            | failed fault more left =>
                have := length_resume_lt_of_failed ht (List.cons_ne_nil t rest) hc
                exact ih _ _ (by omega) (by omega)

theorem declarations_nil (one : Reader Stmt) (close : Kind) :
    declarations one close [] = ⟨[], [], []⟩ := rfl

theorem declarations_close (one : Reader Stmt) {close : Kind} {t : Token} (rest : List Token)
    (h : t.kind = close) : declarations one close (t :: rest) = ⟨[], [], t :: rest⟩ := by
  simp [declarations, declarationsWithin, h]

/-- One declaration, or one fault and what is given up after it, and then the others. -/
theorem declarations_cons {one : Reader Stmt} (ht : Takes one) (ha : Advances one) {close : Kind}
    {t : Token} (rest : List Token) (h : t.kind ≠ close) :
    declarations one close (t :: rest) =
      match one (t :: rest) with
      | .done s passed left => (declarations one close left).after [s] passed
      | .failed fault passed left =>
          (declarations one close (resume left)).after [] (passed ++ [fault]) := by
  simp only [declarations, List.length_cons, declarationsWithin, h, if_false]
  cases hc : one (t :: rest) with
  | done s passed left =>
      have := ha _ _ _ _ hc
      simp only [List.length_cons] at this
      simp only
      rw [declarationsWithin_after, declarationsWithin_bound ht ha close [] []
        (by omega : left.length ≤ rest.length) (Nat.le_refl _)]
      simp
  | failed fault passed left =>
      have hl : (resume left).length ≤ rest.length :=
        Nat.le_of_lt_succ (length_resume_lt_of_failed ht (List.cons_ne_nil t rest) hc)
      simp only
      rw [declarationsWithin_after, declarationsWithin_bound ht ha close [] [] hl (Nat.le_refl _)]
      simp

theorem declarations_rest {one : Reader Stmt} (ht : Takes one) (ha : Advances one) (close : Kind)
    (tokens : List Token) : ∀ t ∈ (declarations one close tokens).rest.head?, t.kind = close := by
  induction hn : tokens.length using Nat.strongRecOn generalizing tokens with
  | _ n ih =>
    cases tokens with
    | nil => simp [declarations_nil]
    | cons t rest =>
        by_cases hk : t.kind = close
        · simp [declarations_close _ rest hk, hk]
        · rw [declarations_cons ht ha rest hk]
          cases hd : one (t :: rest) with
          | done s passed left => exact ih left.length (hn ▸ ha _ _ _ _ hd) left rfl
          | failed fault passed left =>
              have shorter := length_resume_lt_of_failed ht (List.cons_ne_nil t rest) hd
              exact ih _ (hn ▸ shorter) (resume left) rfl

end Reader
end Lox
