import Lox.Proofs.Phrase.Wording

/-!
What is read without a fault is worded so: the tokens that a reader took stand for what it answered.
-/

namespace Lox
namespace Reader

def SoundExpr (p : Reader Expr) (level : Nat) : Prop :=
  ∀ tokens e rest, p tokens = .done e [] rest →
    ∃ w, tokens = w ++ rest ∧ Expr.Wording w e ∧ e.level ≤ level

theorem sound_primary {inner : Reader Expr} {n : Nat} (h : SoundExpr inner n) :
    SoundExpr (primary inner) 0 := by
  intro tokens e rest hd
  cases tokens with
  | nil => simp [primary, fail] at hd
  | cons t more =>
      by_cases hp : t.kind = .leftParen
      · rw [primary_of_paren hp] at hd
        obtain ⟨e', left, hi, hc⟩ := clean_of_bind hd
        obtain ⟨_, last, he, hr⟩ := clean_of_bind hc
        cases hr
        obtain ⟨r, rfl, hk⟩ := expect_clean_iff.1 he
        obtain ⟨w, rfl, hw, _⟩ := h _ _ _ hi
        exact ⟨t :: w ++ [r], by simp, .grouping hp hw hk, Nat.le_refl _⟩
      · by_cases hi : t.kind = .identifier
        · rw [primary_of_identifier hi] at hd
          cases hd
          exact ⟨[t], rfl, .var hi, Nat.le_refl _⟩
        · cases hv : t.value? with
          | none => simp [primary_of_none hv hi hp, fail] at hd
          | some v =>
              rw [primary_of_value hv] at hd
              cases hd
              exact ⟨[t], rfl, .literal hv, Nat.le_refl _⟩

theorem sound_signed {p : Reader Expr} (h : SoundExpr p 1) (n : Nat) :
    SoundExpr (signed p n) 1 := by
  induction n with
  | zero => exact h
  | succ n ih =>
      intro tokens e rest hd
      cases tokens with
      | nil => exact h _ _ _ hd
      | cons t more =>
          cases ho : UnaryOp.ofKind? t.kind with
          | none =>
              simp only [signed, ho] at hd
              exact h _ _ _ hd
          | some op =>
              simp only [signed, ho] at hd
              obtain ⟨operand, left, hs, hc⟩ := clean_of_bind hd
              cases hc
              obtain ⟨w, rfl, hw, hl⟩ := ih _ _ _ hs
              exact ⟨t :: w, rfl, .unary ho hl hw, Nat.le_refl _⟩

/-- What a chain takes continues the wording of the left operand that it starts with. -/
theorem sound_chain {operand : Reader Expr} {rank : Nat} (h : SoundExpr operand rank) (n : Nat)
    {u : List Token} {left : Expr} (hu : Expr.Wording u left) (hl : left.level ≤ rank + 1)
    {tokens rest : List Token} {e : Expr}
    (hd : chain operand rank n left tokens = .done e [] rest) :
    ∃ w, tokens = w ++ rest ∧ Expr.Wording (u ++ w) e ∧ e.level ≤ rank + 1 := by
  have stop {u tokens : List Token} {left : Expr} (hu : Expr.Wording u left)
      (hl : left.level ≤ rank + 1)
      (hs : (Pure.pure left : Reader Expr) tokens = .done e [] rest) :
      ∃ w, tokens = w ++ rest ∧ Expr.Wording (u ++ w) e ∧ e.level ≤ rank + 1 := by
    cases hs
    exact ⟨[], rfl, by simpa using hu, hl⟩
  induction n generalizing u left tokens with
  | zero => exact stop hu hl hd
  | succ n ih =>
      cases tokens with
      | nil => exact stop hu hl hd
      | cons t more =>
          cases hc : Connective.ofKindAt? rank t.kind with
          | none =>
              simp only [chain, hc] at hd
              exact stop hu hl hd
          | some c =>
              simp only [chain, hc] at hd
              obtain ⟨right, last, ho, hn⟩ := clean_of_bind hd
              obtain ⟨hk, rfl⟩ := Connective.ofKindAt?_eq_some_iff.1 hc
              obtain ⟨v, rfl, hv, hr⟩ := h _ _ _ ho
              obtain ⟨w, rfl, hw, he⟩ :=
                ih (.joined hk hl hr hu hv) (Nat.le_of_eq (c.level_join _ _ _)) hn
              exact ⟨t :: v ++ w, by simp, by simpa using hw, he⟩

theorem sound_ranked {operand : Reader Expr} (h : SoundExpr operand 1) (n rank : Nat) :
    SoundExpr (ranked operand n rank) (rank + 1) := by
  induction rank with
  | zero => exact h
  | succ rank ih =>
      intro tokens e rest hd
      obtain ⟨left, middle, hl, hc⟩ := clean_of_bind hd
      obtain ⟨u, rfl, hu, hle⟩ := ih _ _ _ hl
      obtain ⟨w, rfl, hw, he⟩ := sound_chain ih n hu (Nat.le_succ_of_le hle) hc
      exact ⟨u ++ w, by simp, hw, he⟩

theorem sound_assignment {left value : Reader Expr} (hl : SoundExpr left 7)
    (hv : SoundExpr value 8) : SoundExpr (assignment left value) 8 := by
  intro tokens e rest hd
  obtain ⟨target, middle, ht, hc⟩ := clean_of_bind hd
  obtain ⟨u, rfl, hu, hle⟩ := hl _ _ _ ht
  obtain ⟨equals, after, hq, hn⟩ := clean_of_bind hc
  cases equals with
  | none =>
      cases hn
      obtain ⟨rfl, _⟩ := take?_none hq
      exact ⟨u, rfl, hu, Nat.le_succ_of_le hle⟩
  | some q =>
      obtain ⟨rfl, hk⟩ := take?_some hq
      obtain ⟨v, last, hw, hr⟩ := clean_of_bind hn
      obtain ⟨w, rfl, hwv, _⟩ := hv _ _ _ hw
      cases target with
      | var name line =>
          cases hr
          obtain ⟨t, rfl, hi, rfl, rfl⟩ := hu.of_var
          exact ⟨t :: q :: w, rfl, .assign hi hk hwv, Nat.le_refl _⟩
      | literal _ | grouping _ | unary _ _ _ | binary _ _ _ _ | logical _ _ _ | assign _ _ _ =>
          cases hr

theorem sound_expressionWithin (n : Nat) : SoundExpr (expressionWithin n) 8 := by
  induction n with
  | zero => intro tokens e rest hd; cases hd
  | succ n ih =>
      have hp : SoundExpr (primary (expressionWithin n)) 1 := fun tokens e rest hd =>
        let ⟨w, hw, he, hl⟩ := sound_primary ih tokens e rest hd
        ⟨w, hw, he, Nat.le_succ_of_le hl⟩
      exact sound_assignment (sound_ranked (sound_signed hp _) _ _) ih

theorem sound_expression {tokens rest : List Token} {e : Expr}
    (h : expression tokens = .done e [] rest) : ∃ w, tokens = w ++ rest ∧ Expr.Wording w e :=
  let ⟨w, hw, he, _⟩ := sound_expressionWithin _ _ _ _ h
  ⟨w, hw, he⟩

theorem sound_declaredVariable {v : Token} (hv : v.kind = .varWord) {tokens rest : List Token}
    {s : Stmt} (h : declaredVariable tokens = .done s [] rest) :
    ∃ w, tokens = w ++ rest ∧ Stmt.Declaring (v :: w) s := by
  obtain ⟨n, left, ht, h₁⟩ := clean_of_bind h
  obtain ⟨value, middle, hi, h₂⟩ := clean_of_bind h₁
  obtain ⟨_, last, he, h₃⟩ := clean_of_bind h₂
  cases h₃
  obtain ⟨rfl, hn⟩ := take_clean_iff.1 ht
  obtain ⟨t, rfl, hk⟩ := expect_clean_iff.1 he
  obtain ⟨equals, after, hq, hj⟩ := clean_of_bind hi
  cases equals with
  | none =>
      cases hj
      obtain ⟨rfl, _⟩ := take?_none hq
      exact ⟨[n, t], rfl, .bare hv hn hk⟩
  | some q =>
      obtain ⟨rfl, hqk⟩ := take?_some hq
      obtain ⟨e, hx, rfl⟩ := clean_of_map hj
      obtain ⟨w, rfl, hw⟩ := sound_expression hx
      exact ⟨n :: q :: w ++ [t], by simp, .initialized hv hn hqk hw hk⟩

theorem sound_expressionStatement {tokens rest : List Token} {s : Stmt}
    (h : expressionStatement tokens = .done s [] rest) :
    ∃ w, tokens = w ++ rest ∧ Stmt.Evaluating w s := by
  obtain ⟨e, left, hx, h₁⟩ := clean_of_bind h
  obtain ⟨_, last, he, h₂⟩ := clean_of_bind h₁
  cases h₂
  obtain ⟨t, rfl, hk⟩ := expect_clean_iff.1 he
  obtain ⟨w, rfl, hw⟩ := sound_expression hx
  exact ⟨w ++ [t], by simp, .intro hw hk⟩

theorem sound_declaration {p : Reader Stmt} {tokens rest : List Token} {s : Stmt}
    (h : declaration p tokens = .done s [] rest) :
    (∃ w, tokens = w ++ rest ∧ Stmt.Declaring w s) ∨ p tokens = .done s [] rest := by
  obtain ⟨word, left, ht, h₁⟩ := clean_of_bind h
  cases word with
  | none =>
      obtain ⟨rfl, _⟩ := take?_none ht
      exact .inr h₁
  | some v =>
      obtain ⟨rfl, hv⟩ := take?_some ht
      obtain ⟨w, rfl, hw⟩ := sound_declaredVariable hv h₁
      exact .inl ⟨v :: w, rfl, hw⟩

theorem sound_initializer {tokens rest : List Token} {first : Option Stmt}
    (h : initializer tokens = .done first [] rest) :
    ∃ w, tokens = w ++ rest ∧ Stmt.Starting w first := by
  obtain ⟨semicolon, left, ht, h₁⟩ := clean_of_bind h
  cases semicolon with
  | some t =>
      cases h₁
      obtain ⟨rfl, hk⟩ := take?_some ht
      exact ⟨[t], rfl, .absent hk⟩
  | none =>
      obtain ⟨rfl, _⟩ := take?_none ht
      obtain ⟨s, hd, rfl⟩ := clean_of_map h₁
      obtain ⟨w, rfl, hw⟩ | hs := sound_declaration hd
      · exact ⟨w, rfl, .declaring hw⟩
      · obtain ⟨w, rfl, hw⟩ := sound_expressionStatement hs
        exact ⟨w, rfl, .evaluating hw⟩

theorem sound_clause {kind : Kind} {tokens rest : List Token} {e : Option Expr}
    (h : optionalBefore kind expression tokens = .done e [] rest) :
    ∃ w, tokens = w ++ rest ∧ Stmt.Clause w e := by
  obtain ⟨rfl, rfl⟩ | ⟨e, rfl, hx⟩ := clean_of_optionalBefore h
  · exact ⟨[], rfl, .absent⟩
  · obtain ⟨w, rfl, hw⟩ := sound_expression hx
    exact ⟨w, rfl, .present hw⟩

/-- Without a fault, a reader takes a wording of its answer, which is no declaration, and leaves no
`else` that could belong to it. -/
def SoundStmt (p : Reader Stmt) : Prop :=
  ∀ tokens s rest, p tokens = .done s [] rest →
    ∃ w tail, tokens = w ++ rest ∧ s.isDeclaration = false ∧ Stmt.Wording w s tail ∧
      (tail = true → NotNext .elseWord rest)

/-- The condition in parentheses that conditionals and loops begin with. -/
theorem sound_condition {opening closing : Piece} {f : Expr → Reader Stmt}
    {tokens rest : List Token} {s : Stmt} (ho : opening.kind = .leftParen)
    (hc : closing.kind = .rightParen)
    (h : (do
      expect opening
      let condition ← expression
      expect closing
      f condition : Reader Stmt) tokens = .done s [] rest) :
    ∃ l w r e left, tokens = l :: w ++ r :: left ∧ l.kind = .leftParen ∧ Expr.Wording w e ∧
      r.kind = .rightParen ∧ f e left = .done s [] rest := by
  obtain ⟨_, _, hl, h₁⟩ := clean_of_bind h
  obtain ⟨e, _, hx, h₂⟩ := clean_of_bind h₁
  obtain ⟨_, left, hr, h₃⟩ := clean_of_bind h₂
  obtain ⟨l, rfl, hlk⟩ := expect_clean_iff.1 hl
  obtain ⟨w, rfl, hw⟩ := sound_expression hx
  obtain ⟨r, rfl, hrk⟩ := expect_clean_iff.1 hr
  exact ⟨l, w, r, e, left, rfl, hlk.trans ho, hw, hrk.trans hc, h₃⟩

theorem sound_conditional {p : Reader Stmt} (hp : SoundStmt p) {f : Token}
    (hf : f.kind = .ifWord) {tokens rest : List Token} {s : Stmt}
    (h : conditional p tokens = .done s [] rest) :
    ∃ w tail, tokens = w ++ rest ∧ s.isDeclaration = false ∧ Stmt.Wording (f :: w) s tail ∧
      (tail = true → NotNext .elseWord rest) := by
  obtain ⟨l, w, r, e, left, rfl, hl, hw, hr, h₁⟩ := sound_condition rfl rfl h
  obtain ⟨thenBranch, middle, ht, h₂⟩ := clean_of_bind h₁
  obtain ⟨word, after, hk, h₃⟩ := clean_of_bind h₂
  obtain ⟨u, tail, rfl, hs, hu, hn⟩ := hp _ _ _ ht
  cases word with
  | none =>
      cases h₃
      obtain ⟨rfl, hk⟩ := take?_none hk
      exact ⟨l :: w ++ r :: u, true, by simp, rfl, .ifThen hf hl hw hr hs hu, fun _ => hk⟩
  | some o =>
      obtain ⟨rfl, ho⟩ := take?_some hk
      obtain ⟨elseBranch, last, he, h₄⟩ := clean_of_bind h₃
      cases h₄
      obtain ⟨v, tail', rfl, hs', hv, hn'⟩ := hp _ _ _ he
      -- An open then-branch would have taken this `else` for itself.
      have closed : tail = false := by
        cases tail with
        | false => rfl
        | true => exact absurd ho (notNext_cons.1 (hn rfl))
      subst closed
      exact ⟨l :: w ++ r :: u ++ o :: v, tail', by simp, rfl,
        by simpa using Stmt.Wording.ifElse hf hl hw hr hs hu ho hs' hv, hn'⟩

theorem sound_whileLoop {p : Reader Stmt} (hp : SoundStmt p) {f : Token}
    (hf : f.kind = .whileWord) {tokens rest : List Token} {s : Stmt}
    (h : whileLoop p tokens = .done s [] rest) :
    ∃ w tail, tokens = w ++ rest ∧ s.isDeclaration = false ∧ Stmt.Wording (f :: w) s tail ∧
      (tail = true → NotNext .elseWord rest) := by
  obtain ⟨l, w, r, e, left, rfl, hl, hw, hr, h₁⟩ := sound_condition rfl rfl h
  obtain ⟨body, last, hb, h₂⟩ := clean_of_bind h₁
  cases h₂
  obtain ⟨u, tail, rfl, hs, hu, hn⟩ := hp _ _ _ hb
  exact ⟨l :: w ++ r :: u, tail, by simp, rfl, .loop hf hl hw hr hs hu, hn⟩

theorem isDeclaration_forLoop (first : Option Stmt) (condition increment : Option Expr)
    (body : Stmt) : (Stmt.forLoop first condition increment body).isDeclaration = false := by
  cases first <;> rfl

theorem sound_forLoop {p : Reader Stmt} (hp : SoundStmt p) {f : Token}
    (hf : f.kind = .forWord) {tokens rest : List Token} {s : Stmt}
    (h : forLoop p tokens = .done s [] rest) :
    ∃ w tail, tokens = w ++ rest ∧ s.isDeclaration = false ∧ Stmt.Wording (f :: w) s tail ∧
      (tail = true → NotNext .elseWord rest) := by
  obtain ⟨_, _, hl, h₁⟩ := clean_of_bind h
  obtain ⟨first, _, hi, h₂⟩ := clean_of_bind h₁
  obtain ⟨condition, _, hc, h₃⟩ := clean_of_bind h₂
  obtain ⟨_, _, ht, h₄⟩ := clean_of_bind h₃
  obtain ⟨increment, _, hu, h₅⟩ := clean_of_bind h₄
  obtain ⟨_, _, hr, h₆⟩ := clean_of_bind h₅
  obtain ⟨body, last, hb, h₇⟩ := clean_of_bind h₆
  cases h₇
  obtain ⟨l, rfl, hlk⟩ := expect_clean_iff.1 hl
  obtain ⟨w₁, rfl, start⟩ := sound_initializer hi
  obtain ⟨w₂, rfl, test⟩ := sound_clause hc
  obtain ⟨t, rfl, htk⟩ := expect_clean_iff.1 ht
  obtain ⟨w₃, rfl, step⟩ := sound_clause hu
  obtain ⟨r, rfl, hrk⟩ := expect_clean_iff.1 hr
  obtain ⟨u, tail, rfl, hs, hw, hn⟩ := hp _ _ _ hb
  exact ⟨l :: w₁ ++ w₂ ++ t :: w₃ ++ r :: u, tail, by simp, isDeclaration_forLoop _ _ _ _,
    by simpa using Stmt.Wording.forLoop hf hlk start test htk step hrk hs hw, hn⟩

/-- Declarations in a row without a fault are wordings of the statements found, one after the
other. -/
theorem sound_declarationsWithin {p : Reader Stmt} (hp : SoundStmt p) {close : Kind} {n : Nat}
    {tokens : List Token}
    (h : (declarationsWithin (declaration p) close n [] [] tokens).passed = []) :
    ∃ parts : List (List Token × Stmt × Bool),
      tokens = parts.flatMap (·.1) ++
        (declarationsWithin (declaration p) close n [] [] tokens).rest ∧
      (declarationsWithin (declaration p) close n [] [] tokens).statements =
        parts.map (·.2.1) ∧
      ∀ q ∈ parts, Stmt.Wording q.1 q.2.1 q.2.2 := by
  induction n generalizing tokens with
  | zero => exact ⟨[], by simp [declarationsWithin]⟩
  | succ n ih =>
      cases tokens with
      | nil => exact ⟨[], by simp [declarationsWithin]⟩
      | cons t more =>
          simp only [declarationsWithin] at h ⊢
          split
          · exact ⟨[], by simp⟩
          · rename_i hk
            simp only [hk, if_false] at h
            cases hd : declaration p (t :: more) with
            | failed fault passed left =>
                simp only [hd] at h
                rw [declarationsWithin_after] at h
                simp [Declarations.after] at h
            | done s passed left =>
                simp only [hd] at h ⊢
                rw [declarationsWithin_after] at h ⊢
                simp only [Declarations.after, List.append_nil, List.reverse_reverse,
                  List.append_eq_nil_iff] at h
                obtain ⟨rfl, h⟩ := h
                obtain ⟨parts, ht, hs, hw⟩ := ih h
                have one : ∃ w tail, t :: more = w ++ left ∧ Stmt.Wording w s tail := by
                  obtain ⟨w, hw, hd⟩ | hp' := sound_declaration hd
                  · exact ⟨w, false, hw, .declaring hd⟩
                  · obtain ⟨w, tail, hw, -, hd, -⟩ := hp _ _ _ hp'
                    exact ⟨w, tail, hw, hd⟩
                obtain ⟨w, tail, htm, hws⟩ := one
                refine ⟨(w, s, tail) :: parts, ?_, ?_, ?_⟩
                · rw [htm, ht]
                  simp [Declarations.after, ← ht]
                · simp [Declarations.after, hs]
                · exact List.forall_mem_cons.2 ⟨hws, hw⟩

theorem sound_declarations {p : Reader Stmt} (hp : SoundStmt p) {close : Kind}
    {tokens : List Token} (h : (declarations (declaration p) close tokens).passed = []) :
    ∃ parts : List (List Token × Stmt × Bool),
      tokens = parts.flatMap (·.1) ++ (declarations (declaration p) close tokens).rest ∧
      (declarations (declaration p) close tokens).statements = parts.map (·.2.1) ∧
      ∀ q ∈ parts, Stmt.Wording q.1 q.2.1 q.2.2 :=
  sound_declarationsWithin hp h

theorem sound_block {p : Reader Stmt} (hp : SoundStmt p) {l : Token} (hl : l.kind = .leftBrace)
    {tokens rest : List Token} {s : Stmt}
    (h : block (declaration p) tokens = .done s [] rest) :
    ∃ w, tokens = w ++ rest ∧ s.isDeclaration = false ∧ Stmt.Wording (l :: w) s false := by
  obtain ⟨body, left, hb, h₁⟩ := clean_of_bind h
  obtain ⟨_, last, hr, h₂⟩ := clean_of_bind h₁
  cases h₂
  obtain ⟨r, rfl, hrk⟩ := expect_clean_iff.1 hr
  simp only [blockBody, Reply.done.injEq] at hb
  obtain ⟨rfl, passed, hrest⟩ := hb
  obtain ⟨parts, ht, hs, hw⟩ := sound_declarations hp passed
  refine ⟨parts.flatMap (·.1) ++ [r], ?_, rfl, ?_⟩
  · rw [hrest] at ht
    simpa using ht
  · rw [hs]
    exact .block hl hw hrk

theorem sound_statementOf {p : Reader Stmt} (hp : SoundStmt p) : SoundStmt (statementOf p) := by
  intro tokens s rest h
  have plain {tokens : List Token} (h : expressionStatement tokens = .done s [] rest) :
      ∃ w tail, tokens = w ++ rest ∧ s.isDeclaration = false ∧ Stmt.Wording w s tail ∧
        (tail = true → NotNext .elseWord rest) := by
    obtain ⟨w, rfl, hw⟩ := sound_expressionStatement h
    exact ⟨w, false, rfl, by cases hw; rfl, .evaluating hw, by simp⟩
  cases tokens with
  | nil => exact plain h
  | cons t more =>
      simp only [statementOf] at h
      split at h
      case h_1 hk =>
        obtain ⟨e, left, hx, h₁⟩ := clean_of_bind h
        obtain ⟨_, last, he, h₂⟩ := clean_of_bind h₁
        cases h₂
        obtain ⟨c, rfl, hc⟩ := expect_clean_iff.1 he
        obtain ⟨w, rfl, hw⟩ := sound_expression hx
        exact ⟨t :: w ++ [c], false, by simp, rfl, .print hk hw hc, by simp⟩
      case h_2 hk =>
        obtain ⟨w, rfl, hs, hw⟩ := sound_block hp hk h
        exact ⟨t :: w, false, rfl, hs, hw, by simp⟩
      case h_3 hk =>
        obtain ⟨w, tail, rfl, hs⟩ := sound_conditional hp hk h
        exact ⟨t :: w, tail, rfl, hs⟩
      case h_4 hk =>
        obtain ⟨w, tail, rfl, hs⟩ := sound_whileLoop hp hk h
        exact ⟨t :: w, tail, rfl, hs⟩
      case h_5 hk =>
        obtain ⟨w, tail, rfl, hs⟩ := sound_forLoop hp hk h
        exact ⟨t :: w, tail, rfl, hs⟩
      case h_6 => exact plain h

theorem sound_statementWithin (n : Nat) : SoundStmt (statementWithin n) := by
  induction n with
  | zero => intro tokens s rest h; cases h
  | succ n ih => exact sound_statementOf ih

theorem sound_statement : SoundStmt statement := fun tokens => sound_statementWithin _ tokens

end Reader
end Lox
