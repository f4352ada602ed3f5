import Lox.Proofs.Phrase.Wording

/-!
Expressions that run into each other. Wordings of two expressions with a connective between them are
the wording of one, whatever the ranks of the connectives in them, since a tighter connective takes
its operands from inside a looser one. A sign in front of an expression can be taken for such a
connective.
-/

namespace Lox
namespace Expr

/-- The tokens of an expression, a connective, and those of an operand that is tight enough for it:
the connective joins as much of the expression as it binds. -/
theorem Wording.append_operand {u v : List Token} {l r : Expr} {t : Token} {c : Connective}
    (hl : Wording u l) (ht : Connective.ofKind? t.kind = some c) (hr : Wording v r)
    (tight : r.level ≤ c.rank) :
    ∃ e, Wording (u ++ t :: v) e ∧ e.level ≤ max l.level (c.rank + 1) := by
  have direct {u : List Token} {l : Expr} (hl : Wording u l) (low : l.level ≤ c.rank + 1) :
      ∃ e, Wording (u ++ t :: v) e ∧ e.level ≤ max l.level (c.rank + 1) :=
    ⟨_, .joined ht low tight hl hr, by rw [c.level_join]; exact Nat.le_max_right _ _⟩
  induction hl with
  | literal h => exact direct (.literal h) (Nat.zero_le _)
  | var h => exact direct (.var h) (Nat.zero_le _)
  | grouping hl inner hr => exact direct (.grouping hl inner hr) (Nat.zero_le _)
  | unary ht level operand => exact direct (.unary ht level operand) (Nat.le_add_left 1 _)
  | @joined t' c' u' v' l' r' ht' hl' hr' left right _ ih =>
      by_cases low : c'.rank ≤ c.rank
      · exact direct (.joined ht' hl' hr' left right)
          (by rw [c'.level_join]; exact Nat.succ_le_succ low)
      · -- The connective is tighter, and takes its left operand from the right one of the other.
        obtain ⟨e, worded, level⟩ := ih
        have fits : e.level ≤ c'.rank := by omega
        refine ⟨c'.join t'.line l' e, ?_, ?_⟩
        · rw [List.append_assoc, List.cons_append]
          exact .joined ht' hl' fits left worded
        · rw [c'.level_join, c'.level_join]
          exact Nat.le_max_left _ _
  | assign hn hq value ih =>
      obtain ⟨e, worded, -⟩ := ih
      exact ⟨_, .assign hn hq worded, Nat.le_max_left _ _⟩

/-- The tokens of two expressions with a connective between them, the second no assignment. -/
theorem Wording.append {u v : List Token} {l r : Expr} {t : Token} {c : Connective}
    (hl : Wording u l) (ht : Connective.ofKind? t.kind = some c) (hr : Wording v r)
    (simple : r.level ≤ 7) : ∃ e, Wording (u ++ t :: v) e := by
  have direct {v : List Token} {r : Expr} (hr : Wording v r) (tight : r.level ≤ c.rank) :
      ∃ e, Wording (u ++ t :: v) e := by
    obtain ⟨e, worded, -⟩ := hl.append_operand ht hr tight
    exact ⟨e, worded⟩
  induction hr with
  | literal h => exact direct (.literal h) (Nat.zero_le _)
  | var h => exact direct (.var h) (Nat.zero_le _)
  | grouping hl inner hr => exact direct (.grouping hl inner hr) (Nat.zero_le _)
  | unary ht level operand => exact direct (.unary ht level operand) c.rank_pos
  | @joined t' c' u' v' l' r' ht' hl' hr' left right ih _ =>
      -- The left operand goes on with the first expression, and the right one with both.
      have rank := c'.rank_le_loosest
      obtain ⟨e, worded⟩ := ih (by simp only [Connective.loosest] at rank; omega)
      obtain ⟨e', worded', -⟩ := worded.append_operand ht' right hr'
      rw [List.append_assoc, List.cons_append] at worded'
      exact ⟨e', worded'⟩
  | assign => simp [level] at simple

/-- Without the minus at its front an expression is still one, and as tight. -/
theorem Wording.tail_of_minus {t : Token} {w : List Token} {e : Expr} (h : Wording (t :: w) e)
    (ht : t.kind = .minus) : ∃ e', Wording w e' ∧ e'.level ≤ e.level := by
  generalize hu : t :: w = u at h
  induction h generalizing w with
  | literal h =>
      obtain ⟨rfl, -⟩ := List.cons.inj hu
      simp [Token.value?, ht] at h
  | var h | grouping h | assign h =>
      obtain ⟨rfl, -⟩ := List.cons.inj hu
      cases ht.symm.trans h
  | unary _ level operand =>
      obtain ⟨rfl, rfl⟩ := List.cons.inj hu
      exact ⟨_, operand, level⟩
  | @joined t' c u v l r ht' hl hr left right ih _ =>
      obtain ⟨t₁, more, rfl, -⟩ := left.head
      obtain ⟨rfl, rfl⟩ := List.cons.inj hu
      obtain ⟨e', worded, level⟩ := ih rfl
      refine ⟨c.join t'.line e' r, .joined ht' (Nat.le_trans level hl) hr worded right, ?_⟩
      exact Nat.le_of_eq ((c.level_join _ _ _).trans (c.level_join _ _ _).symm)

theorem Wording.level_of_minus {t : Token} {w : List Token} {e : Expr} (h : Wording (t :: w) e)
    (ht : t.kind = .minus) : e.level ≤ 7 := by
  generalize hu : t :: w = u at h
  cases h with
  | assign h =>
      obtain ⟨rfl, -⟩ := List.cons.inj hu
      cases ht.symm.trans h
  | joined =>
      rw [Connective.level_join]
      exact Nat.succ_le_succ (Connective.rank_le_loosest _)
  | unary => simp [level]
  | literal | var | grouping => exact Nat.zero_le _

/-- An expression that begins with a minus goes on with one that stands before it. -/
theorem Wording.append_of_minus {t : Token} {u w : List Token} {l e : Expr} (hl : Wording u l)
    (h : Wording (t :: w) e) (ht : t.kind = .minus) : ∃ e', Wording (u ++ t :: w) e' := by
  obtain ⟨e', worded, level⟩ := h.tail_of_minus ht
  have minus : Connective.ofKind? t.kind = some (.binary .subtract) := by rw [ht]; rfl
  exact hl.append minus worded (Nat.le_trans level (h.level_of_minus ht))

end Expr
end Lox
