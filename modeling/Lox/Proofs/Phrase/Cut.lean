import Lox.Proofs.Phrase.Resumption

/-!
Semicolons after plain statements. In tokens that are read without a fault, these are the semicolons
that are in no parentheses, all but those in the headers of `for` loops.
-/

namespace Lox

namespace Stmt

/-- The tokens of a statement, cut at a semicolon that ends a plain statement in it: those before
the semicolon, the semicolon, and those after it. -/
inductive Cut : List Token → Token → List Token → Stmt → Bool → Prop
  | here {u : List Token} {t : Token} {s : Stmt} {tail : Bool} (h : Wording (u ++ [t]) s tail)
      (plain : s.Plain) : Cut u t [] s tail
  | block {l r t : Token} {u v : List Token} {s : Stmt} {tail : Bool}
      {before after : List (List Token × Stmt × Bool)} (hl : l.kind = .leftBrace)
      (hb : ∀ p ∈ before, Wording p.1 p.2.1 p.2.2) (inside : Cut u t v s tail)
      (ha : ∀ p ∈ after, Wording p.1 p.2.1 p.2.2) (hr : r.kind = .rightBrace) :
      Cut (l :: before.flatMap (·.1) ++ u) t (v ++ after.flatMap (·.1) ++ [r])
        (.block (before.map (·.2.1) ++ s :: after.map (·.2.1))) false
  | ifThen {f l r t : Token} {w u v : List Token} {e : Expr} {s : Stmt} {tail : Bool}
      (hf : f.kind = .ifWord) (hl : l.kind = .leftParen) (condition : Expr.Wording w e)
      (hr : r.kind = .rightParen) (hs : s.isDeclaration = false) (inside : Cut u t v s tail) :
      Cut (f :: l :: w ++ r :: u) t v (.ifThen e s) true
  | thenBranch {f l r o t : Token} {w u v x : List Token} {e : Expr} {s s' : Stmt} {tail : Bool}
      (hf : f.kind = .ifWord) (hl : l.kind = .leftParen) (condition : Expr.Wording w e)
      (hr : r.kind = .rightParen) (hs : s.isDeclaration = false) (inside : Cut u t v s false)
      (ho : o.kind = .elseWord) (hs' : s'.isDeclaration = false) (elseBranch : Wording x s' tail) :
      Cut (f :: l :: w ++ r :: u) t (v ++ o :: x) (.ifElse e s s') tail
  | elseBranch {f l r o t : Token} {w u v x : List Token} {e : Expr} {s s' : Stmt} {tail : Bool}
      (hf : f.kind = .ifWord) (hl : l.kind = .leftParen) (condition : Expr.Wording w e)
      (hr : r.kind = .rightParen) (hs : s.isDeclaration = false) (thenBranch : Wording x s false)
      (ho : o.kind = .elseWord) (hs' : s'.isDeclaration = false) (inside : Cut u t v s' tail) :
      Cut (f :: l :: w ++ r :: x ++ o :: u) t v (.ifElse e s s') tail
  | loop {f l r t : Token} {w u v : List Token} {e : Expr} {s : Stmt} {tail : Bool}
      (hf : f.kind = .whileWord) (hl : l.kind = .leftParen) (condition : Expr.Wording w e)
      (hr : r.kind = .rightParen) (hs : s.isDeclaration = false) (inside : Cut u t v s tail) :
      Cut (f :: l :: w ++ r :: u) t v (.loop e s) tail
  | forLoop {f l c r t : Token} {w₁ w₂ w₃ u v : List Token} {first : Option Stmt}
      {condition increment : Option Expr} {s : Stmt} {tail : Bool}
      (hf : f.kind = .forWord) (hl : l.kind = .leftParen) (start : Starting w₁ first)
      (test : Clause w₂ condition) (hc : c.kind = .semicolon) (step : Clause w₃ increment)
      (hr : r.kind = .rightParen) (hs : s.isDeclaration = false) (inside : Cut u t v s tail) :
      Cut (f :: l :: w₁ ++ w₂ ++ c :: w₃ ++ r :: u) t v (.forLoop first condition increment s) tail

section

variable {u v : List Token} {t : Token} {s : Stmt} {tail : Bool}

/-- With the semicolon they are the tokens of the statement. -/
theorem Cut.wording (h : Cut u t v s tail) : Wording (u ++ t :: v) s tail := by
  induction h with
  | here h => exact h
  | @block l r t u v s tail before after hl hb _ ha hr ih =>
      have parts : ∀ p ∈ before ++ (u ++ t :: v, s, tail) :: after, Wording p.1 p.2.1 p.2.2 :=
        List.forall_mem_append.2 ⟨hb, List.forall_mem_cons.2 ⟨ih, ha⟩⟩
      simpa using Wording.block hl parts hr
  | ifThen hf hl condition hr hs _ ih =>
      simpa using Wording.ifThen hf hl condition hr hs ih
  | thenBranch hf hl condition hr hs _ ho hs' elseBranch ih =>
      simpa using Wording.ifElse hf hl condition hr hs ih ho hs' elseBranch
  | elseBranch hf hl condition hr hs thenBranch ho hs' _ ih =>
      simpa using Wording.ifElse hf hl condition hr hs thenBranch ho hs' ih
  | loop hf hl condition hr hs _ ih => simpa using Wording.loop hf hl condition hr hs ih
  | forLoop hf hl start test hc step hr hs _ ih =>
      simpa using Wording.forLoop hf hl start test hc step hr hs ih

theorem Cut.head (h : Cut u t v s tail) : ∃ n more, u = n :: more ∧
    (n.kind.beginsStatement = true ∨ n.kind = .varWord ∧ s.isDeclaration = true) := by
  have some : u ≠ [] := by
    cases h with
    | here h plain =>
        rintro rfl
        obtain ⟨_, _, _, -, -, -, hx, -⟩ | ⟨front, w, _, _, _, e, -, hw, -, hx, -⟩ :=
          h.plain_cases plain
        · cases hx
        · obtain ⟨n, more, rfl, -⟩ := hw.head
          have size := congrArg List.length hx
          simp at size
          omega
    | _ => simp
  obtain ⟨n, more, hu, hn⟩ := h.wording.head
  obtain ⟨n', more', rfl⟩ := List.exists_cons_of_ne_nil some
  obtain ⟨rfl, -⟩ := List.cons.inj hu
  exact ⟨n', more', rfl, hn⟩

end

end Stmt

def Kind.paren : Kind → Int
  | .leftParen => 1
  | .rightParen => -1
  | _ => 0

def Token.parens : List Token → Int
  | [] => 0
  | t :: w => t.kind.paren + parens w

namespace Token

@[simp] theorem parens_nil : parens [] = 0 := rfl

@[simp] theorem parens_cons (t : Token) (w : List Token) :
    parens (t :: w) = t.kind.paren + parens w := rfl

@[simp] theorem parens_append (u w : List Token) : parens (u ++ w) = parens u + parens w := by
  induction u with
  | nil => rw [List.nil_append, parens_nil, Int.zero_add]
  | cons t u ih => rw [List.cons_append, parens_cons, parens_cons, ih, Int.add_assoc]

end Token

open Token (parens parens_nil parens_cons parens_append)

theorem Expr.Wording.parens_eq {w : List Token} {e : Expr} (h : Wording w e) : parens w = 0 := by
  induction h with
  | @literal t v h =>
      rw [parens_cons, parens_nil]
      cases hk : t.kind <;> simp [Token.value?, hk] at h <;> rfl
  | var h => simp [h, Kind.paren]
  | grouping hl _ hr ih => simp [hl, hr, ih, Kind.paren]
  | @unary t op w e ht _ _ ih =>
      rw [parens_cons, ih]
      cases hk : t.kind <;> simp [UnaryOp.ofKind?, hk] at ht <;> rfl
  | @joined t c u v l r ht _ _ _ _ ihl ihr =>
      rw [parens_append, parens_cons, ihl, ihr]
      cases hk : t.kind <;> simp [Connective.ofKind?, hk] at ht <;> rfl
  | assign hn hq _ ih => simp [hn, hq, ih, Kind.paren]

namespace Stmt

/-- A plain statement ends with its one semicolon, and every parenthesis in it is closed. -/
theorem Wording.plain_front {x : List Token} {s : Stmt} {tail : Bool} (h : Wording x s tail)
    (plain : s.Plain) : ∃ front t, x = front ++ [t] ∧ t.kind = .semicolon ∧
      (∀ n ∈ front, n.kind ≠ .semicolon) ∧ parens front = 0 := by
  obtain ⟨v, n, t, hv, hn, ht, rfl, -⟩ | ⟨front, w, t, _, _, e, opening, hw, ht, rfl, -⟩ :=
    h.plain_cases plain
  · exact ⟨[v, n], t, rfl, ht, by simp [hv, hn], by simp [hv, hn, Kind.paren]⟩
  · refine ⟨front ++ w, t, rfl, ht, ?_, ?_⟩
    · have value : ∀ n ∈ w, n.kind ≠ .semicolon := fun n hn => (hw.quiet n hn).1
      refine List.forall_mem_append.2 ⟨?_, value⟩
      cases opening with
      | declaring hv hn hq => simp [hv, hn, hq]
      | printing hp => simp [hp]
      | evaluating => simp
    · rw [parens_append, hw.parens_eq]
      cases opening with
      | declaring hv hn hq => simp [hv, hn, hq, Kind.paren]
      | printing hp => simp [hp, Kind.paren]
      | evaluating => rfl

theorem Clause.parens_eq {w : List Token} {e : Option Expr} (h : Clause w e) : parens w = 0 := by
  cases h with
  | absent => rfl
  | present h => exact h.parens_eq

theorem Clause.ne_semicolon {w : List Token} {e : Option Expr} (h : Clause w e) :
    ∀ n ∈ w, n.kind ≠ .semicolon := by
  cases h with
  | absent => simp
  | present h => exact fun n hn => (h.quiet n hn).1

theorem Starting.front {w : List Token} {first : Option Stmt} (h : Starting w first) :
    ∃ front t, w = front ++ [t] ∧ t.kind = .semicolon ∧ (∀ n ∈ front, n.kind ≠ .semicolon) ∧
      parens front = 0 := by
  cases h with
  | @absent t ht => exact ⟨[], t, rfl, ht, by simp, rfl⟩
  | declaring h => exact (Wording.declaring h).plain_front h.plain
  | evaluating h => exact (Wording.evaluating h).plain_front h.plain

theorem parens_flatMap {parts : List (List Token × Stmt × Bool)}
    (h : ∀ p ∈ parts, parens p.1 = 0) : parens (parts.flatMap (·.1)) = 0 := by
  induction parts with
  | nil => rfl
  | cons p parts ih =>
      obtain ⟨hp, hs⟩ := List.forall_mem_cons.1 h
      rw [List.flatMap_cons, parens_append, hp, ih hs, Int.add_zero]

theorem Wording.parens_eq {x : List Token} {s : Stmt} {tail : Bool} (h : Wording x s tail) :
    parens x = 0 := by
  have plain {x : List Token} {s : Stmt} {tail : Bool} (h : Wording x s tail) (hs : s.Plain) :
      parens x = 0 := by
    obtain ⟨front, t, rfl, ht, -, balanced⟩ := h.plain_front hs
    simp [balanced, ht, Kind.paren]
  induction h with
  | declaring h => exact plain (.declaring h) h.plain
  | evaluating h => exact plain (.evaluating h) h.plain
  | print hp value ht => exact plain (.print hp value ht) trivial
  | block hl _ hr ih =>
      simp [parens_flatMap ih, hl, hr, Kind.paren]
  | ifThen hf hl condition hr _ _ ih | loop hf hl condition hr _ _ ih =>
      simp [condition.parens_eq, ih, hf, hl, hr, Kind.paren]
  | ifElse hf hl condition hr _ _ ho _ _ ih ih' =>
      simp [condition.parens_eq, ih, ih', hf, hl, hr, ho, Kind.paren]
  | forLoop hf hl start test ht step hr _ _ ih =>
      obtain ⟨front, c, rfl, hc, -, balanced⟩ := start.front
      simp [balanced, test.parens_eq, step.parens_eq, ih, hf, hl, hr, hc, ht, Kind.paren]

section split

variable {front back u v : List Token} {t : Token}

/-- A cut of two lists one after the other is in one of them. -/
theorem split_append (h : front ++ back = u ++ t :: v) :
    (∃ v', front = u ++ t :: v' ∧ v = v' ++ back) ∨
      ∃ u', u = front ++ u' ∧ back = u' ++ t :: v := by
  obtain ⟨u', hu, hb⟩ | ⟨v', hf, hv⟩ := List.append_eq_append_iff.1 h
  · exact .inr ⟨u', hu, hb⟩
  · cases v' with
    | nil => exact .inr ⟨[], by simpa using hf.symm, by simpa using hv.symm⟩
    | cons n v' =>
        obtain ⟨rfl, rfl⟩ := List.cons.inj hv
        exact .inl ⟨v', hf, rfl⟩

/-- A semicolon is behind tokens that are none. -/
theorem split_behind (h : front ++ back = u ++ t :: v) (none : ∀ n ∈ front, n.kind ≠ .semicolon)
    (ht : t.kind = .semicolon) : ∃ u', u = front ++ u' ∧ back = u' ++ t :: v := by
  obtain ⟨v', rfl, -⟩ | behind := split_append h
  · exact absurd ht (none t (by simp))
  · exact behind

theorem split_cons {n : Token} (h : n :: back = u ++ t :: v) :
    u = [] ∧ n = t ∧ back = v ∨ ∃ u', u = n :: u' ∧ back = u' ++ t :: v := by
  cases u with
  | nil => exact .inl ⟨rfl, List.cons.inj h⟩
  | cons n' u =>
      obtain ⟨rfl, hb⟩ := List.cons.inj h
      exact .inr ⟨u, rfl, hb⟩

/-- A cut of the tokens of parts is in one of the parts. -/
theorem split_flatMap {parts : List (List Token × Stmt × Bool)}
    (h : parts.flatMap (·.1) = u ++ t :: v) :
    ∃ before p after u' v', parts = before ++ p :: after ∧ p.1 = u' ++ t :: v' ∧
      u = before.flatMap (·.1) ++ u' ∧ v = v' ++ after.flatMap (·.1) := by
  induction parts generalizing u with
  | nil => simp at h
  | cons p parts ih =>
      rw [List.flatMap_cons] at h
      obtain ⟨v', hp, rfl⟩ | ⟨u', rfl, rest⟩ := split_append h
      · exact ⟨[], p, parts, u, v', rfl, hp, rfl, rfl⟩
      · obtain ⟨before, q, after, u'', v', rfl, hq, rfl, rfl⟩ := ih rest
        exact ⟨p :: before, q, after, u'', v', rfl, hq, by simp, rfl⟩

end split

/-- A semicolon in a conditional or a `while` loop is behind the condition. -/
theorem split_condition {f l r t : Token} {w x u v : List Token} {e : Expr}
    (hf : f.kind = .ifWord ∨ f.kind = .whileWord) (hl : l.kind = .leftParen)
    (condition : Expr.Wording w e) (hr : r.kind = .rightParen)
    (h : f :: l :: w ++ r :: x = u ++ t :: v) (ht : t.kind = .semicolon) :
    ∃ u', u = f :: l :: w ++ r :: u' ∧ x = u' ++ t :: v ∧ parens u = parens u' := by
  have whole : f :: l :: w ++ [r] ++ x = u ++ t :: v := by simpa using h
  have none : ∀ n ∈ f :: l :: w ++ [r], n.kind ≠ .semicolon := by
    have value : ∀ n ∈ w, n.kind ≠ .semicolon := fun n hn => (condition.quiet n hn).1
    refine List.forall_mem_append.2 ⟨?_, by simp [hr]⟩
    obtain hf | hf := hf <;> simpa [hf, hl] using value
  obtain ⟨u', rfl, rest⟩ := split_behind whole none ht
  refine ⟨u', by simp, rest, ?_⟩
  have word : f.kind.paren = 0 := by obtain hf | hf := hf <;> simp [hf, Kind.paren]
  have opened : l.kind.paren = 1 := by simp [hl, Kind.paren]
  have closed : r.kind.paren = -1 := by simp [hr, Kind.paren]
  simp only [parens_append, parens_cons, parens_nil, condition.parens_eq, word, opened, closed]
  omega

/-- A semicolon in a `for` loop that is in no parentheses is behind the header. -/
theorem split_header {f l c r t : Token} {w₁ w₂ w₃ x u v : List Token} {first : Option Stmt}
    {condition increment : Option Expr} (hf : f.kind = .forWord) (hl : l.kind = .leftParen)
    (start : Starting w₁ first) (test : Clause w₂ condition) (hc : c.kind = .semicolon)
    (step : Clause w₃ increment) (hr : r.kind = .rightParen)
    (h : f :: l :: w₁ ++ w₂ ++ c :: w₃ ++ r :: x = u ++ t :: v) (ht : t.kind = .semicolon)
    (outside : parens u = 0) :
    ∃ u', u = f :: l :: w₁ ++ w₂ ++ c :: w₃ ++ r :: u' ∧ x = u' ++ t :: v ∧ parens u' = 0 := by
  -- At both semicolons of the header one parenthesis is open.
  obtain ⟨front, c₁, rfl, hc₁, none, balanced⟩ := start.front
  have whole : f :: l :: front ++ c₁ :: (w₂ ++ c :: (w₃ ++ [r] ++ x)) = u ++ t :: v := by
    simpa using h
  have opening : ∀ n ∈ f :: l :: front, n.kind ≠ .semicolon := by simpa [hf, hl] using none
  obtain ⟨u₁, rfl, first⟩ := split_behind whole opening ht
  obtain ⟨rfl, -⟩ | ⟨u₂, rfl, second⟩ := split_cons first
  · simp [balanced, hf, hl, Kind.paren] at outside
  obtain ⟨u₃, rfl, last⟩ := split_behind second test.ne_semicolon ht
  obtain ⟨rfl, -⟩ | ⟨u₄, rfl, behind⟩ := split_cons last
  · simp [balanced, test.parens_eq, hf, hl, hc₁, Kind.paren] at outside
  have closing : ∀ n ∈ w₃ ++ [r], n.kind ≠ .semicolon :=
    List.forall_mem_append.2 ⟨step.ne_semicolon, by simp [hr]⟩
  obtain ⟨u₅, rfl, within⟩ := split_behind behind closing ht
  refine ⟨u₅, by simp, within, ?_⟩
  simp [balanced, test.parens_eq, step.parens_eq, hf, hl, hc₁, hc, hr, Kind.paren] at outside
  omega

/-- A semicolon in no parentheses ends a plain statement. -/
theorem Wording.cut {x : List Token} {s : Stmt} {tail : Bool} (h : Wording x s tail)
    {u v : List Token} {t : Token} (hx : x = u ++ t :: v) (ht : t.kind = .semicolon)
    (outside : parens u = 0) : Cut u t v s tail := by
  have plain {x : List Token} {s : Stmt} {tail : Bool} (h : Wording x s tail) (hs : s.Plain)
      {u v : List Token} (hx : x = u ++ t :: v) : Cut u t v s tail := by
    obtain ⟨front, t', rfl, -, none, -⟩ := h.plain_front hs
    obtain ⟨u', rfl, last⟩ := split_behind hx none ht
    obtain ⟨rfl, rfl, rfl⟩ | ⟨u'', rfl, rest⟩ := split_cons last
    · rw [List.append_nil]
      exact .here h hs
    · simp at rest
  induction h generalizing u v with
  | declaring h => exact plain (.declaring h) h.plain hx
  | evaluating h => exact plain (.evaluating h) h.plain hx
  | print hp value ht => exact plain (.print hp value ht) trivial hx
  | @block l r parts hl body hr ih =>
      obtain ⟨rfl, rfl, -⟩ | ⟨u₁, rfl, inner⟩ := split_cons hx
      · cases hl.symm.trans ht
      obtain ⟨v₁, within, rfl⟩ | ⟨_, -, brace⟩ := split_append inner
      · obtain ⟨before, p, after, u₂, v₂, rfl, hp, rfl, rfl⟩ := split_flatMap within
        obtain ⟨hb, more⟩ := List.forall_mem_append.1 body
        obtain ⟨-, ha⟩ := List.forall_mem_cons.1 more
        have balanced := parens_flatMap fun p hp => (hb p hp).parens_eq
        have inside : parens u₂ = 0 := by
          simpa [balanced, hl, Kind.paren] using outside
        simpa using Cut.block hl hb (ih p (by simp) hp inside) ha hr
      · obtain ⟨-, rfl, -⟩ | ⟨_, -, nothing⟩ := split_cons brace
        · cases hr.symm.trans ht
        · simp at nothing
  | ifThen hf hl condition hr hs _ ih =>
      obtain ⟨u₁, rfl, inner, same⟩ := split_condition (.inl hf) hl condition hr hx ht
      exact .ifThen hf hl condition hr hs (ih inner (same.symm.trans outside))
  | @ifElse f l r o w x x' e s s' tail hf hl condition hr hs thenBranch ho hs' elseBranch ih ih' =>
      have whole : f :: l :: w ++ r :: (x ++ o :: x') = u ++ t :: v := by simpa using hx
      obtain ⟨u₁, rfl, inner, same⟩ := split_condition (.inl hf) hl condition hr whole ht
      rw [same] at outside
      obtain ⟨v₁, within, rfl⟩ | ⟨u₂, rfl, other⟩ := split_append inner
      · exact .thenBranch hf hl condition hr hs (ih within outside) ho hs' elseBranch
      · obtain ⟨-, rfl, -⟩ | ⟨u₃, rfl, within⟩ := split_cons other
        · cases ho.symm.trans ht
        · have inside : parens u₃ = 0 := by
            simpa [thenBranch.parens_eq, ho, Kind.paren] using outside
          simpa using Cut.elseBranch hf hl condition hr hs thenBranch ho hs' (ih' within inside)
  | loop hf hl condition hr hs _ ih =>
      obtain ⟨u₁, rfl, inner, same⟩ := split_condition (.inr hf) hl condition hr hx ht
      exact .loop hf hl condition hr hs (ih inner (same.symm.trans outside))
  | @forLoop f l c r w₁ w₂ w₃ x first condition increment s tail hf hl start test hc step hr hs _
      ih =>
      obtain ⟨u₁, rfl, inner, inside⟩ := split_header hf hl start test hc step hr hx ht outside
      exact .forLoop hf hl start test hc step hr hs (ih inner inside)

end Stmt

namespace Program

/-- The tokens of a program, cut at a semicolon that ends a plain statement somewhere in it. -/
inductive Cut : List Token → Token → List Token → Prop
  | intro {u v : List Token} {t : Token} {s : Stmt} {tail : Bool}
      {before after : List (List Token × Stmt × Bool)}
      (hb : ∀ p ∈ before, Stmt.Wording p.1 p.2.1 p.2.2) (inside : Stmt.Cut u t v s tail)
      (ha : ∀ p ∈ after, Stmt.Wording p.1 p.2.1 p.2.2) :
      Cut (before.flatMap (·.1) ++ u) t (v ++ after.flatMap (·.1))

/-- Read without a fault, tokens are cut by each semicolon that is in no parentheses. -/
theorem cut_of_parens {tokens u v : List Token} {t : Token} (clean : (ofTokens tokens).faults = [])
    (h : body tokens = u ++ t :: v) (ht : t.kind = .semicolon) (outside : parens u = 0) :
    Cut u t v := by
  obtain ⟨parts, cover, -, worded⟩ := wording_of_faults_nil clean
  obtain ⟨before, p, after, u', v', rfl, hp, rfl, rfl⟩ :=
    Stmt.split_flatMap (cover.symm.trans h)
  obtain ⟨hb, more⟩ := List.forall_mem_append.1 worded
  obtain ⟨here, ha⟩ := List.forall_mem_cons.1 more
  have inside : parens u' = 0 := by
    rwa [parens_append, Stmt.parens_flatMap fun q hq => (hb q hq).parens_eq, Int.zero_add]
      at outside
  exact .intro hb (here.cut hp ht inside) ha

theorem cut_at {tokens : List Token} {i : Nat} (clean : (ofTokens tokens).faults = [])
    (ht : (body tokens)[i]?.map (·.kind) = some .semicolon)
    (outside : parens ((body tokens).take i) = 0) :
    ∃ t, body tokens = (body tokens).take i ++ t :: (body tokens).drop (i + 1) ∧
      Cut ((body tokens).take i) t ((body tokens).drop (i + 1)) := by
  obtain ⟨t, found, ht⟩ := Option.map_eq_some_iff.1 ht
  obtain ⟨inside, rfl⟩ := List.getElem?_eq_some_iff.1 found
  have split : body tokens =
      (body tokens).take i ++ (body tokens)[i] :: (body tokens).drop (i + 1) := by
    rw [List.getElem_cons_drop, List.take_append_drop]
  exact ⟨_, split, cut_of_parens clean split ht outside⟩

end Program

end Lox
