import Lox.Proofs.Phrase.Copies

/-!
Reading the two copies of statements. A statement that ends in a conditional without an `else` is
not over when its tokens are read: it takes the `else` that may come next. So both copies of a
statement are read as far as its tokens go, and then what may still come is read.
-/

namespace Lox
namespace Reader

open Grammar

variable {α β : Type}

def elseOf (condition : Expr) (thenBranch : Stmt) : Reader Stmt := do
  match ← take? .elseWord with
  | some _ => return .ifElse condition thenBranch (← statement)
  | none => return .ifThen condition thenBranch

/-- What may still be read when the tokens of a statement are read: nothing, or an `else` of one of
the conditionals that the statement ends in. -/
inductive Tail : Reader Stmt → Prop
  | closed (s : Stmt) : Tail (Pure.pure s)
  | opened {q : Reader Stmt} (condition : Expr) (h : Tail q) : Tail (q >>= elseOf condition)
  | mapped {q : Reader Stmt} (g : Stmt → Stmt) (h : Tail q) : Tail (g <$> q)

/-- Nothing more is read if no `else` comes. -/
theorem Tail.ends {q : Reader Stmt} (h : Tail q) :
    ∃ s, ∀ rest, NotNext .elseWord rest → q rest = .done s [] rest := by
  induction h with
  | closed s => exact ⟨s, fun _ _ => rfl⟩
  | opened condition _ ih =>
      obtain ⟨s, hs⟩ := ih
      refine ⟨.ifThen condition s, fun rest hr => ?_⟩
      rw [bind_of_clean (hs rest hr), elseOf, bind_of_clean (take?_of_notNext hr)]
      rfl
  | mapped g _ ih =>
      obtain ⟨s, hs⟩ := ih
      exact ⟨g s, fun rest hr => map_of_clean (hs rest hr) g⟩

def Anything : List Token → Prop := fun _ => True

section reads

variable {p : Reader α} {d d' : Draft}

theorem reads_trans {q r : Reader α} (h : Reads p d q Anything) (h' : Reads q d' r Anything) :
    Reads p (d ++ d') r Anything := by
  intro c rest hr
  rw [Draft.text_append, List.append_assoc, h c _ trivial, h' c rest hr, Reply.after_after,
    Draft.faults_append]

theorem reads_tail {q : Reader α} {follows : List Token → Prop} (h : Reads p d q follows)
    (f : α → Reader β) : Reads (p >>= f) d (q >>= f) follows := by
  intro c rest hr
  rw [bind_apply, h c rest hr, bind_apply]
  cases q rest with
  | done a passed left => exact (Reply.after_after _ _ _).symm
  | failed fault passed left => rfl

theorem reads_map {a : α} {follows : List Token → Prop} (h : Reads p d (Pure.pure a) follows)
    (f : α → β) : Reads (f <$> p) d (Pure.pure (f a)) follows :=
  reads_last h _

end reads

section attach

variable {o : Token} {d : Draft} {r : Reader Stmt} (ho : o.kind = .elseWord) (hr : Tail r)
  (read : Reads statement d r Anything)

include ho hr read

/-- An `else` that comes where it may is taken. -/
theorem opened_attach {q : Reader Stmt} (condition : Expr)
    (h : (∃ s, ∀ rest, q rest = .done s [] rest) ∨
      ∃ q', Tail q' ∧ Reads q (.single o ++ d) q' Anything) :
    ∃ q', Tail q' ∧ Reads (q >>= elseOf condition) (.single o ++ d) q' Anything := by
  obtain ⟨s, hs⟩ | ⟨q', hq', taken⟩ := h
  · have taken : Reads (elseOf condition s) (.single o ++ d) (.ifElse condition s <$> r)
        Anything := by
      refine reads_cons (fun rest => ?_) (reads_tail read _)
      rw [elseOf, bind_of_clean (take?_of_eq ho rest)]
      rfl
    refine ⟨_, .mapped (.ifElse condition s) hr, fun c rest more => ?_⟩
    rw [bind_of_clean (hs _)]
    exact taken c rest more
  · exact ⟨_, .opened condition hq', reads_tail taken _⟩

/-- What comes after an `else` goes to the innermost conditional that still has none, if there is
one. -/
theorem Tail.attach {q : Reader Stmt} (h : Tail q) : (∃ s, ∀ rest, q rest = .done s [] rest) ∨
    ∃ q', Tail q' ∧ Reads q (.single o ++ d) q' Anything := by
  induction h with
  | closed s => exact .inl ⟨s, fun _ => rfl⟩
  | opened condition _ ih => exact .inr (opened_attach ho hr read condition ih)
  | mapped g _ ih =>
      obtain ⟨s, hs⟩ | ⟨q', hq', taken⟩ := ih
      · exact .inl ⟨g s, fun rest => map_of_clean (hs rest) g⟩
      · exact .inr ⟨_, .mapped g hq', reads_tail taken _⟩

end attach

def IsNext (k : Kind) (tokens : List Token) : Prop := ∃ t more, tokens = t :: more ∧ t.kind = k

theorem next_single {t : Token} {k : Kind} (ht : t.kind = k) (c : Copy) (rest : List Token) :
    IsNext k ((Draft.single t).text c ++ rest) :=
  ⟨t, rest, by simp, ht⟩

theorem next_single_append {t : Token} {k : Kind} (ht : t.kind = k) (d : Draft) (c : Copy)
    (rest : List Token) : IsNext k ((Draft.single t ++ d).text c ++ rest) :=
  ⟨t, d.text c ++ rest, by simp, ht⟩

/-- A reader that leaves the first token to another one reads what that one reads. -/
theorem reads_of_begins {α : Type} {p p' q : Reader α} {d : Draft} {begins : Kind → Bool}
    {follows : List Token → Prop} (h : Reads p' d q follows) (first : d.Begins begins)
    (same : ∀ t rest, begins t.kind = true → p (t :: rest) = p' (t :: rest)) :
    Reads p d q follows := by
  intro c rest hr
  obtain ⟨t, more, ht, hk⟩ := first c
  rw [← h c rest hr, ht]
  exact same t _ hk

section declarations

variable {d v : Draft} {e : Expr} {t : Token}

structure ReadsDeclaring (d : Draft) (s : Stmt) : Prop where
  reads : ∀ p, Reads (declaration p) d (Pure.pure s) Anything
  begins : d.Begins (· == .varWord)

theorem readsDeclaring {w n : Token} {value : Option Expr} (hw : w.kind = .varWord)
    (hn : n.kind = .identifier) (hv : Reads initialValue v (Pure.pure value) (IsNext .semicolon))
    (ht : t.kind = .semicolon) :
    ReadsDeclaring (.single w ++ (.single n ++ (v ++ .single t)))
      (.declare n.lexeme value n.line) where
  reads p := by
    have word (rest : List Token) : declaration p (w :: rest) = declaredVariable rest := by
      rw [declaration, bind_of_clean (take?_of_eq hw rest)]
    have name : Reads (take .identifier .noVariableName) (.single n) (Pure.pure n) Anything :=
      reads_token fun rest => take_clean_iff.2 ⟨rfl, hn⟩
    exact reads_cons word (reads_bind name (reads_bind hv (reads_last (reads_expect ht) _)
      fun c rest _ => next_single ht c rest) fun _ _ _ => trivial)
  begins := Draft.begins_single (by simp [hw]) _

theorem reads_initialValue_none :
    Reads initialValue .empty (Pure.pure none) (IsNext .semicolon) := by
  rintro c _ ⟨t, rest, rfl, ht⟩
  rw [Draft.text_empty, List.nil_append, initialValue,
    bind_of_clean (take?_of_notNext (notNext_cons.2 (by simp [ht])))]
  simp [pure_apply, Reply.after]

theorem reads_initialValue_some {q : Token} (hq : q.kind = .equal) (h : ReadsValue v e) :
    Reads initialValue (.single q ++ v) (Pure.pure (some e)) (IsNext .semicolon) := by
  have sign (rest : List Token) :
      initialValue (q :: rest) = (some <$> expression : Reader _) rest := by
    rw [initialValue, bind_of_clean (take?_of_eq hq rest)]
  refine reads_cons sign (reads_map ?_ some)
  rintro c _ ⟨t, rest, rfl, ht⟩
  exact h.reads c _ (ends_of_semicolon ht rest)

theorem reads_evaluating (h : ReadsValue d e) (ht : t.kind = .semicolon) :
    Reads expressionStatement (d ++ .single t) (Pure.pure (.expression e)) Anything := by
  refine reads_bind h.reads (reads_last (reads_expect ht) _) fun c rest _ => ?_
  rw [Draft.text_single]
  exact ends_of_semicolon ht rest

end declarations

section clauses

variable {d : Draft} {e : Expr} {s : Stmt} {t : Token}

theorem reads_initializer_none (ht : t.kind = .semicolon) :
    Reads initializer (.single t) (Pure.pure none) Anything :=
  reads_token fun rest => bind_of_clean (take?_of_eq ht rest) _

theorem reads_initializer_declaring (h : ReadsDeclaring d s) :
    Reads initializer d (Pure.pure (some s)) Anything :=
  reads_of_begins (reads_map (h.reads expressionStatement) some) h.begins fun t rest hk =>
    initializer_of_notNext (notNext_cons.2 fun ht => by simp [ht] at hk)

theorem reads_initializer_evaluating (h : ReadsValue d e) (ht : t.kind = .semicolon) :
    Reads initializer (d ++ .single t) (Pure.pure (some (.expression e))) Anything := by
  have begins := h.begins.append (.single t)
  have read : Reads (declaration expressionStatement) (d ++ .single t)
      (Pure.pure (.expression e)) Anything :=
    reads_of_begins (reads_evaluating h ht) begins fun u rest hk =>
      declaration_of_notNext (notNext_cons.2 (Kind.ne_of_beginsExpression hk rfl))
  exact reads_of_begins (reads_map read some) begins fun u rest hk =>
    initializer_of_notNext (notNext_cons.2 (Kind.ne_of_beginsExpression hk rfl))

theorem reads_clause_none (k : Kind) :
    Reads (optionalBefore k expression) .empty (Pure.pure none) (IsNext k) := by
  rintro c _ ⟨t, rest, rfl, ht⟩
  rw [Draft.text_empty, List.nil_append, optionalBefore_of_next ht]
  simp [pure_apply, Reply.after]

theorem reads_clause_some {k : Kind} (hk : k = .semicolon ∨ k = .rightParen) (h : ReadsValue d e) :
    Reads (optionalBefore k expression) d (Pure.pure (some e)) (IsNext k) := by
  have read : Reads (some <$> expression : Reader _) d (Pure.pure (some e)) (IsNext k) := by
    refine reads_map ?_ some
    rintro c _ ⟨t, rest, rfl, ht⟩
    obtain rfl | rfl := hk
    · exact h.reads c _ (ends_of_semicolon ht rest)
    · exact h.reads c _ (ends_of_rightParen ht rest)
  refine reads_of_begins read h.begins fun t rest begins => ?_
  have other : t.kind ≠ k := by
    obtain rfl | rfl := hk <;> exact Kind.ne_of_beginsExpression begins rfl
  rw [optionalBefore, bind_of_clean (p := peek) rfl, if_neg (by simpa using other)]
  rfl

end clauses

section statements

variable {d d' : Draft} {e : Expr} {t : Token} {q : Reader Stmt}

/-- A statement: both copies are read alike, as far as the tokens go. -/
structure ReadsStatement (d : Draft) (q : Reader Stmt) : Prop where
  tail : Tail q
  reads : Reads statement d q Anything
  begins : d.Begins Kind.beginsStatement

structure ReadsDeclaration (d : Draft) (q : Reader Stmt) : Prop where
  tail : Tail q
  reads : Reads (declaration statement) d q Anything
  begins : d.Begins fun k => k.beginsStatement || k == .varWord

theorem ReadsDeclaring.declaration {s : Stmt} (h : ReadsDeclaring d s) :
    ReadsDeclaration d (Pure.pure s) where
  tail := .closed s
  reads := h.reads statement
  begins c := by
    obtain ⟨t, more, ht, hk⟩ := h.begins c
    exact ⟨t, more, ht, by simp [hk]⟩

theorem ReadsStatement.declaration (h : ReadsStatement d q) : ReadsDeclaration d q where
  tail := h.tail
  reads := reads_of_begins h.reads h.begins fun t rest hk =>
    declaration_of_notNext (notNext_cons.2 fun ht => by
      simp [ht, Kind.beginsStatement, Kind.beginsExpression] at hk)
  begins c := by
    obtain ⟨t, more, ht, hk⟩ := h.begins c
    exact ⟨t, more, ht, by simp [hk]⟩

/-- Declarations in a row are read to their end, if nothing that a declaration begins with and no
`else` can end them. -/
theorem reads_declarations {parts : List Draft} (h : ∀ part ∈ parts, ∃ q, ReadsDeclaration part q)
    {close : Kind} (hc : close.beginsStatement = false) (hv : close ≠ .varWord)
    (he : close ≠ .elseWord) : ∃ statements, ∀ c rest, (∀ t ∈ rest.head?, t.kind = close) →
      declarations (declaration statement) close ((Draft.join parts).text c ++ rest) =
        ⟨statements, (Draft.join parts).faults c, rest⟩ := by
  induction parts with
  | nil =>
      refine ⟨[], fun c rest hr => ?_⟩
      rw [Draft.join, Draft.text_empty, List.nil_append, declarations_of_closes hr,
        Draft.faults_empty]
  | cons part parts ih =>
      obtain ⟨⟨q, hq⟩, more⟩ := List.forall_mem_cons.1 h
      obtain ⟨statements, later⟩ := ih more
      obtain ⟨s, ends⟩ := hq.tail.ends
      refine ⟨s :: statements, fun c rest hr => ?_⟩
      have next : NotNext .elseWord ((Draft.join parts).text c ++ rest) := by
        cases parts with
        | nil =>
            intro t ht
            rw [Draft.join, Draft.text_empty, List.nil_append] at ht
            exact hr t ht ▸ he
        | cons part parts =>
            obtain ⟨q', hq'⟩ := more part List.mem_cons_self
            obtain ⟨t, left, ht, hk⟩ := hq'.begins c
            rw [Draft.join, Draft.text_append, ht, List.cons_append, List.cons_append,
              notNext_cons]
            intro ho
            simp [ho, Kind.beginsStatement, Kind.beginsExpression] at hk
      have read := hq.reads c ((Draft.join parts).text c ++ rest) trivial
      rw [ends _ next] at read
      obtain ⟨t, left, ht, hk⟩ := hq.begins c
      have goes : t.kind ≠ close := by
        rintro rfl
        simp [hc, hv] at hk
      rw [Draft.join, Draft.text_append, List.append_assoc]
      rw [ht, List.cons_append] at read ⊢
      rw [declarations_cons (takes_declaration takes_statement)
        (advances_declaration advances_statement) _ goes, read]
      simp [Reply.after, later c rest hr, Declarations.after]

theorem readsStatement_evaluating (h : ReadsValue d e) (ht : t.kind = .semicolon) :
    ReadsStatement (d ++ .single t) (Pure.pure (.expression e)) where
  tail := .closed _
  reads := reads_of_begins (reads_evaluating h ht) (h.begins.append _) fun _ rest hk =>
    statement_of_beginsExpression hk rest
  begins c := by
    obtain ⟨u, more, hu, hk⟩ := (h.begins.append (.single t)) c
    refine ⟨u, more, hu, ?_⟩
    cases hk' : u.kind <;> simp_all [Kind.beginsStatement, Kind.beginsExpression]

/-- A statement that begins with a word or a brace. -/
theorem readsStatement_cons {p : Reader Stmt} (hk : t.kind.beginsStatement = true)
    (same : ∀ rest, statementOf statement (t :: rest) = p rest) (tail : Tail q)
    (h : Reads p d q Anything) : ReadsStatement (.single t ++ d) q where
  tail := tail
  reads := reads_cons (fun rest => (statement_eq _).trans (same rest)) h
  begins := Draft.begins_single hk d

theorem readsStatement_print {p : Token} (hp : p.kind = .printWord) (h : ReadsValue d e)
    (ht : t.kind = .semicolon) :
    ReadsStatement (.single p ++ (d ++ .single t)) (Pure.pure (.print e)) := by
  refine readsStatement_cons (p := printed) (by rw [hp]; rfl)
    (fun rest => by simp only [statementOf, hp]) (.closed _) ?_
  refine reads_bind h.reads (reads_last (reads_expect ht) _) fun c rest _ => ?_
  rw [Draft.text_single]
  exact ends_of_semicolon ht rest

theorem readsStatement_block {l r : Token} {parts : List Draft} (hl : l.kind = .leftBrace)
    (h : ∀ part ∈ parts, ∃ q, ReadsDeclaration part q) (hr : r.kind = .rightBrace) :
    ∃ s, ReadsStatement (.single l ++ (.join parts ++ .single r)) (Pure.pure s) := by
  have other : Kind.rightBrace ≠ .varWord ∧ Kind.rightBrace ≠ .elseWord := by decide
  obtain ⟨statements, read⟩ := reads_declarations h rfl other.1 other.2
  refine ⟨.block statements, readsStatement_cons (p := block (Reader.declaration statement))
    (by rw [hl]; rfl) (fun rest => by simp only [statementOf, hl]) (.closed _) ?_⟩
  have body : Reads (blockBody (Reader.declaration statement)) (.join parts) (Pure.pure statements)
      fun rest => ∀ t ∈ rest.head?, t.kind = .rightBrace := by
    intro c rest hr
    rw [blockBody, read c rest hr]
    simp [pure_apply, Reply.after]
  refine reads_bind body (reads_last (reads_expect hr) _) fun c rest _ => ?_
  simpa using hr

/-- A condition in parentheses, and what is read after it. -/
theorem reads_condition {opening closing : Piece} {l r : Token} {f : Expr → Reader Stmt}
    (hl : l.kind = .leftParen) (h : ReadsValue d e) (hr : r.kind = .rightParen)
    (h' : Reads (f e) d' q Anything) (ho : opening.kind = .leftParen)
    (hc : closing.kind = .rightParen) :
    Reads (do
      expect opening
      let condition ← expression
      expect closing
      f condition : Reader Stmt) (.single l ++ (d ++ (.single r ++ d'))) q Anything := by
  have first : Reads (expect opening) (.single l) (Pure.pure ()) Anything :=
    reads_expect (hl.trans ho.symm)
  have last : Reads (expect closing) (.single r) (Pure.pure ()) Anything :=
    reads_expect (hr.trans hc.symm)
  refine reads_bind first (reads_bind h.reads (reads_bind last h' fun _ _ _ => trivial) ?_)
    fun _ _ _ => trivial
  intro c rest _
  rw [Draft.text_append, Draft.text_single, List.append_assoc, List.singleton_append]
  exact ends_of_rightParen hr _

section conditions

variable {f l r : Token} (hl : l.kind = .leftParen) (h : ReadsValue d e)
  (hr : r.kind = .rightParen) (body : ReadsStatement d' q)

include hl h hr body

theorem readsStatement_ifThen (hf : f.kind = .ifWord) :
    ReadsStatement (.single f ++ (.single l ++ (d ++ (.single r ++ d')))) (q >>= elseOf e) :=
  readsStatement_cons (p := conditional statement) (by rw [hf]; rfl)
    (fun rest => by simp only [statementOf, hf]) (.opened e body.tail)
    (reads_condition hl h hr (reads_tail body.reads (elseOf e)) rfl rfl)

theorem readsStatement_ifElse {o : Token} {v : Draft} {q' : Reader Stmt} (hf : f.kind = .ifWord)
    (ho : o.kind = .elseWord) (other : ReadsStatement v q') :
    ∃ q'', ReadsStatement
      (.single f ++ (.single l ++ (d ++ (.single r ++ (d' ++ (.single o ++ v)))))) q'' := by
  have attached := Tail.attach ho other.tail other.reads body.tail
  obtain ⟨q'', tail, taken⟩ := opened_attach ho other.tail other.reads e attached
  have branches := reads_trans (reads_tail body.reads (elseOf e)) taken
  exact ⟨q'', readsStatement_cons (p := conditional statement) (by rw [hf]; rfl)
    (fun rest => by simp only [statementOf, hf]) tail (reads_condition hl h hr branches rfl rfl)⟩

theorem readsStatement_loop (hf : f.kind = .whileWord) :
    ReadsStatement (.single f ++ (.single l ++ (d ++ (.single r ++ d')))) (.loop e <$> q) :=
  readsStatement_cons (p := whileLoop statement) (by rw [hf]; rfl)
    (fun rest => by simp only [statementOf, hf]) (.mapped (.loop e) body.tail)
    (reads_condition hl h hr (reads_tail body.reads _) rfl rfl)

end conditions

theorem readsStatement_forLoop {f l t r : Token} {d₁ d₂ d₃ : Draft} {first : Option Stmt}
    {condition increment : Option Expr} (hf : f.kind = .forWord) (hl : l.kind = .leftParen)
    (start : Reads initializer d₁ (Pure.pure first) Anything)
    (test : Reads (optionalBefore .semicolon expression) d₂ (Pure.pure condition)
      (IsNext .semicolon))
    (ht : t.kind = .semicolon)
    (step : Reads (optionalBefore .rightParen expression) d₃ (Pure.pure increment)
      (IsNext .rightParen))
    (hr : r.kind = .rightParen) (body : ReadsStatement d q) :
    ReadsStatement
      (.single f ++ (.single l ++ (d₁ ++ (d₂ ++ (.single t ++ (d₃ ++ (.single r ++ d)))))))
      (.forLoop first condition increment <$> q) := by
  have opening : Reads (expect .parenAfterFor) (.single l) (Pure.pure ()) Anything :=
    reads_expect hl
  have middle : Reads (expect .semicolonAfterLoopCondition) (.single t) (Pure.pure ()) Anything :=
    reads_expect ht
  have closing : Reads (expect .parenAfterForClauses) (.single r) (Pure.pure ()) Anything :=
    reads_expect hr
  have header : Reads (forLoop statement) _ (.forLoop first condition increment <$> q) Anything :=
    reads_bind opening (reads_bind start (reads_bind test (reads_bind middle (reads_bind step
      (reads_bind closing (reads_tail body.reads _) fun _ _ _ => trivial)
      fun c rest _ => next_single_append hr d c rest) fun _ _ _ => trivial)
      fun c rest _ => next_single_append ht _ c rest) fun _ _ _ => trivial) fun _ _ _ => trivial
  exact readsStatement_cons (p := forLoop statement) (by rw [hf]; rfl)
    (fun rest => by simp only [statementOf, hf]) (.mapped _ body.tail) header

end statements

end Reader
end Lox
