import Lox.Phrase.Bound
import Lox.Proofs.Phrase.Clean

/-!
The readers of expressions without their bounds: one reader for the operands of products, and above
it one for every rank of connectives, each in terms of the one below.
-/

namespace Lox

def Token.value? (t : Token) : Option Value :=
  match t.kind with
  | .falseWord => some (.bool false)
  | .trueWord => some (.bool true)
  | .nullWord => some .nil
  | .number | .string => some (t.literal.getD .nil)
  | _ => none

theorem Connective.ofKindAt?_eq_some_iff {rank : Nat} {k : Kind} {c : Connective} :
    ofKindAt? rank k = some c ↔ ofKind? k = some c ∧ c.rank = rank := by
  simp [ofKindAt?, Option.filter_eq_some_iff]

namespace Reader

theorem primary_of_value {t : Token} {v : Value} (h : t.value? = some v) (inner : Reader Expr)
    (rest : List Token) : primary inner (t :: rest) = .done (.literal v) [] rest := by
  cases hk : t.kind <;> simp_all [Token.value?, primary]

theorem primary_of_identifier {t : Token} (h : t.kind = .identifier) (inner : Reader Expr)
    (rest : List Token) : primary inner (t :: rest) = .done (.var t.lexeme t.line) [] rest := by
  simp [primary, h]

theorem primary_of_paren {t : Token} (h : t.kind = .leftParen) (inner : Reader Expr)
    (rest : List Token) :
    primary inner (t :: rest) =
      (do
        let e ← inner
        expect .parenAfterExpression
        return .grouping e : Reader Expr) rest := by
  simp [primary, h]

theorem primary_of_none {t : Token} (h : t.value? = none) (hi : t.kind ≠ .identifier)
    (hp : t.kind ≠ .leftParen) (inner : Reader Expr) (rest : List Token) :
    primary inner (t :: rest) = fail .noExpression (t :: rest) := by
  cases hk : t.kind <;> simp_all [Token.value?, primary]

/-- Expressions whose connectives outside parentheses have at most a given rank. -/
def level (rank : Nat) : Reader Expr := fun tokens =>
  ranked (signed (primary expression) tokens.length) tokens.length rank tokens

/-- Connectives of the rank above a given one, with their operands, after a left operand. -/
def more (rank : Nat) (left : Expr) : Reader Expr := fun tokens =>
  chain (level rank) (rank + 1) tokens.length left tokens

theorem ranked_eq_level {n : Nat} {tokens : List Token} (h : tokens.length ≤ n) (rank : Nat) :
    ranked (signed (primary expression) n) n rank tokens = level rank tokens := by
  have hp := takes_primary takes_expression
  have hs : Agree tokens.length (signed (primary expression) n)
      (signed (primary expression) tokens.length) :=
    agree_signed hp (.refl _ _) h (Nat.le_refl _)
  exact agree_ranked (takes_signed hp _) hs h (Nat.le_refl _) rank tokens (Nat.le_refl _)

theorem takes_level (rank : Nat) : Takes (level rank) := fun tokens =>
  takes_ranked (takes_signed (takes_primary takes_expression) _) _ rank tokens

theorem assignment_congr {p q : Reader Expr} {tokens : List Token} (h : p tokens = q tokens)
    (value : Reader Expr) : assignment p value tokens = assignment q value tokens := by
  rw [assignment, assignment, bind_apply, bind_apply, h]

section assignment

variable {left value : Reader Expr} {tokens rest last : List Token} {target e : Expr} {q : Token}
  {passed passed' : List Fault} {fault : Fault}

theorem assignment_of_failed (h : left tokens = .failed fault passed rest) :
    assignment left value tokens = .failed fault passed rest := by
  rw [assignment, bind_apply, h]

theorem assignment_of_absent (h : left tokens = .done target passed rest)
    (hn : NotNext .equal rest) : assignment left value tokens = .done target passed rest := by
  rw [assignment, after_of_done h, bind_of_clean (take?_of_notNext hn)]
  simp [pure_apply, Reply.after]

variable (h : left tokens = .done target passed (q :: rest)) (hq : q.kind = .equal)

include h hq

theorem assignment_of_value_failed (hv : value rest = .failed fault passed' last) :
    assignment left value tokens = .failed fault (passed ++ passed') last := by
  rw [assignment, after_of_done h, bind_of_clean (take?_of_eq hq rest)]
  exact congrArg (Reply.after passed) (bind_of_failed hv _)

theorem assignment_of_var {name : String} {line : Nat} (ht : target = .var name line)
    (hv : value rest = .done e passed' last) :
    assignment left value tokens = .done (.assign name line e) (passed ++ passed') last := by
  subst ht
  rw [assignment, after_of_done h, bind_of_clean (take?_of_eq hq rest)]
  refine (congrArg (Reply.after passed) (after_of_done hv _)).trans ?_
  simp [pure_apply, Reply.after]

/-- What is no variable stays as it is, and the fault at the sign comes after those behind it. -/
theorem assignment_of_other (ht : ∀ name line, target ≠ .var name line)
    (hv : value rest = .done e passed' last) :
    assignment left value tokens =
      .done target (passed ++ (passed' ++ [⟨.invalidTarget, some q⟩])) last := by
  rw [assignment, after_of_done h, bind_of_clean (take?_of_eq hq rest)]
  refine (congrArg (Reply.after passed) (after_of_done hv _)).trans ?_
  cases target with
  | var name line => exact absurd rfl (ht name line)
  | _ => rfl

end assignment

theorem expression_ladder (tokens : List Token) :
    expression tokens = assignment (level Connective.loosest) expression tokens := by
  rw [expression_eq (Nat.le_refl tokens.length)]
  exact assignment_congr (ranked_eq_level (Nat.le_refl _) _) expression

theorem level_zero_of_unsigned {t : Token} (h : UnaryOp.ofKind? t.kind = none)
    (rest : List Token) : level 0 (t :: rest) = primary expression (t :: rest) := by
  simp [level, ranked, signed, h]

theorem level_zero_of_sign {t : Token} {op : UnaryOp} (h : UnaryOp.ofKind? t.kind = some op)
    (rest : List Token) :
    level 0 (t :: rest) =
      (do
        let operand ← level 0
        return .unary op t.line operand : Reader Expr) rest := by
  simp only [level, ranked, List.length_cons, signed, h]
  rfl

theorem level_succ (rank : Nat) (tokens : List Token) :
    level (rank + 1) tokens = (level rank >>= more rank) tokens := by
  have hl (n : Nat) (h : tokens.length ≤ n) (left : Expr) :
      Agree tokens.length
        (chain (ranked (signed (primary expression) n) n rank) (rank + 1) n left)
        (more rank left) := by
    intro ts ht
    have hr : Agree ts.length (ranked (signed (primary expression) n) n rank) (level rank) :=
      fun us hu => ranked_eq_level (Nat.le_trans hu (Nat.le_trans ht h)) rank
    exact agree_chain (takes_ranked (takes_signed (takes_primary takes_expression) _) _ _) hr
      (Nat.le_trans ht h) (Nat.le_refl _) left ts (Nat.le_refl _)
  have hr : Agree tokens.length
      (ranked (signed (primary expression) tokens.length) tokens.length rank) (level rank) :=
    fun ts ht => ranked_eq_level ht rank
  exact agree_bind (takes_ranked (takes_signed (takes_primary takes_expression) _) _ _) hr
    (hl tokens.length (Nat.le_refl _)) tokens (Nat.le_refl _)

theorem more_nil (rank : Nat) (left : Expr) : more rank left [] = .done left [] [] := rfl

theorem more_of_none {rank : Nat} {t : Token}
    (h : Connective.ofKindAt? (rank + 1) t.kind = none) (left : Expr) (rest : List Token) :
    more rank left (t :: rest) = .done left [] (t :: rest) := by
  simp only [more, List.length_cons, chain, h]
  rfl

theorem more_of_some {rank : Nat} {t : Token} {c : Connective}
    (h : Connective.ofKindAt? (rank + 1) t.kind = some c) (left : Expr) (rest : List Token) :
    more rank left (t :: rest) =
      (do
        let right ← level rank
        more rank (c.join t.line left right) : Reader Expr) rest := by
  simp only [more, List.length_cons, chain, h]
  exact agree_bind (takes_level rank) (.refl _ _)
    (fun right ts ht => agree_chain (takes_level rank) (.refl _ _) ht (Nat.le_refl _) _ ts
      (Nat.le_refl _)) rest (Nat.le_refl _)

end Reader
end Lox
