import Lox.Proofs.Phrase.Completeness
import Lox.Proofs.Phrase.Composition
import Lox.Proofs.Phrase.Relaxed

/-!
Reading the two copies of a draft: the rough one, as it is written, and the fair one, with what is
misplaced deleted. Both are read alike, but that in the rough one every misplaced sign is passed
over as an invalid target.
-/

namespace Lox

namespace Reply

variable {α : Type}

theorem after_after (first second : List Fault) (r : Reply α) :
    (r.after second).after first = r.after (first ++ second) := by
  cases r <;> simp [after]

end Reply

inductive Copy
  | rough
  | fair

namespace Grammar.Draft

def text (d : Draft) : Copy → List Token
  | .rough => d.tokens
  | .fair => d.kept

def faults (d : Draft) : Copy → List Fault
  | .rough => d.signs.map fun q => ⟨.invalidTarget, some q⟩
  | .fair => []

@[simp]
theorem text_append (d d' : Draft) (c : Copy) : (d ++ d').text c = d.text c ++ d'.text c := by
  cases c <;> rfl

@[simp]
theorem faults_append (d d' : Draft) (c : Copy) :
    (d ++ d').faults c = d.faults c ++ d'.faults c := by
  cases c <;> simp [faults]

@[simp]
theorem text_single (t : Token) (c : Copy) : (single t).text c = [t] := by
  cases c <;> rfl

@[simp]
theorem faults_single (t : Token) (c : Copy) : (single t).faults c = [] := by
  cases c <;> rfl

@[simp]
theorem text_empty (c : Copy) : empty.text c = [] := by
  cases c <;> rfl

@[simp]
theorem faults_empty (c : Copy) : empty.faults c = [] := by
  cases c <;> rfl

def Begins (d : Draft) (begins : Kind → Bool) : Prop :=
  ∀ c, ∃ t more, d.text c = t :: more ∧ begins t.kind = true

theorem Begins.append {d : Draft} {begins : Kind → Bool} (h : d.Begins begins) (d' : Draft) :
    (d ++ d').Begins begins := by
  intro c
  obtain ⟨t, more, ht, hk⟩ := h c
  exact ⟨t, more ++ d'.text c, by rw [text_append, ht, List.cons_append], hk⟩

theorem begins_single {t : Token} {begins : Kind → Bool} (h : begins t.kind = true) (d : Draft) :
    (single t ++ d).Begins begins :=
  fun c => ⟨t, d.text c, by simp, h⟩

end Grammar.Draft

namespace Reader

open Grammar

variable {α β : Type}

/-- Of both copies of a draft, as long as what follows is as it must be, one reader reads what the
draft stands for, and then goes on as another one. -/
def Reads (p : Reader α) (d : Draft) (q : Reader α) (follows : List Token → Prop) : Prop :=
  ∀ c rest, follows rest → p (d.text c ++ rest) = (q rest).after (d.faults c)

section reads

variable {p : Reader α} {f : α → Reader β} {d d' : Draft} {t : Token} {a : α}
  {follows follows' : List Token → Prop}

theorem Reads.done (h : Reads p d (Pure.pure a) follows) (c : Copy) {rest : List Token}
    (hr : follows rest) : p (d.text c ++ rest) = .done a (d.faults c) rest := by
  rw [h c rest hr, pure_apply, Reply.after, List.append_nil]

theorem reads_bind {q : Reader β} (h : Reads p d (Pure.pure a) follows)
    (h' : Reads (f a) d' q follows')
    (hf : ∀ c rest, follows' rest → follows (d'.text c ++ rest)) :
    Reads (p >>= f) (d ++ d') q follows' := by
  intro c rest hr
  rw [Draft.text_append, List.append_assoc, after_of_done (h.done c (hf c rest hr)), h' c rest hr,
    Reply.after_after, Draft.faults_append]

theorem reads_last (h : Reads p d (Pure.pure a) follows) (f : α → Reader β) :
    Reads (p >>= f) d (f a) follows :=
  fun c _ hr => after_of_done (h.done c hr) f

theorem reads_token {q : Reader α} (h : ∀ rest, p (t :: rest) = q rest) :
    Reads p (.single t) q follows := by
  intro c rest _
  rw [Draft.text_single, Draft.faults_single, Reply.after_nil]
  exact h rest

theorem reads_expect {piece : Piece} (ht : t.kind = piece.kind) :
    Reads (expect piece) (.single t) (Pure.pure ()) follows :=
  reads_token fun rest => expect_of_eq ht rest

/-- A reader that takes a token goes on as the one that reads what is after it. -/
theorem reads_cons {p q r : Reader α} (h : ∀ rest, p (t :: rest) = q rest)
    (h' : Reads q d r follows) : Reads p (.single t ++ d) r follows := by
  intro c rest hr
  have whole : (Draft.single t ++ d).text c ++ rest = t :: (d.text c ++ rest) := by simp
  rw [whole, h, h' c rest hr, Draft.faults_append, Draft.faults_single, List.nil_append]

end reads

section expressions

/-- An operand of a rank: both copies are read as the same expression, which is a variable only if
the draft is one. -/
structure ReadsOperand (rank : Nat) (d : Draft) (e : Expr) : Prop where
  reads : Reads (level rank) d (Pure.pure e) (Follows rank)
  bare : ∀ name line, e = .var name line → d.Bare
  begins : d.Begins Kind.beginsExpression

theorem var_of_bare {d : Draft} {e : Expr} {rank : Nat} (hr : rank ≤ Connective.loosest)
    (h : ReadsOperand rank d e) (bare : d.Bare) : ∃ name line, e = .var name line := by
  obtain ⟨n, tokens, hn⟩ := bare
  have nothing : Follows rank [] := by simp [Follows]
  have read := h.reads.done .rough nothing
  have alone := (complete_expr (.var hn)).1 rank [] hr (Nat.zero_le _) nothing
  rw [Draft.text, tokens, alone] at read
  exact ⟨_, _, (Reply.done.inj read).1.symm⟩

theorem readsOperand_of_token {t : Token} {e : Expr} (h : Expr.Wording [t] e)
    (hl : e.level ≤ 1) (ht : t.kind.beginsExpression = true)
    (bare : ∀ name line, e = .var name line → t.kind = .identifier) :
    ReadsOperand 0 (.single t) e where
  reads := by
    intro c rest hr
    rw [Draft.text_single, (complete_expr h).1 0 rest (Nat.zero_le _) hl hr, Draft.faults_single]
    rfl
  bare name line he := ⟨t, rfl, bare name line he⟩
  begins := by simpa using Draft.begins_single ht .empty

theorem readsOperand_sign {t : Token} {op : UnaryOp} {d : Draft} {e : Expr}
    (ht : UnaryOp.ofKind? t.kind = some op) (h : ReadsOperand 0 d e) :
    ReadsOperand 0 (.single t ++ d) (.unary op t.line e) where
  reads := reads_cons (level_zero_of_sign ht) (reads_last h.reads _)
  bare _ _ he := by cases he
  begins := by
    refine Draft.begins_single ?_ d
    cases hk : t.kind <;> simp [UnaryOp.ofKind?, hk] at ht <;> rfl

theorem readsOperand_grouping {l r : Token} {d : Draft} {e : Expr} (hl : l.kind = .leftParen)
    (hr : r.kind = .rightParen) (h : Reads expression d (Pure.pure e) Ends) :
    ReadsOperand 0 (.single l ++ (d ++ .single r)) (.grouping e) where
  reads := by
    refine reads_cons (fun rest => (level_zero_of_primary (.inr (.inl hl)) rest).trans
      (primary_of_paren hl _ rest)) (reads_bind h (reads_last (reads_expect hr) _) ?_)
    intro c rest _
    rw [Draft.text_single]
    exact ends_of_rightParen hr rest
  bare _ _ he := by cases he
  begins := Draft.begins_single (by rw [hl]; rfl) _

def Joins (rank : Nat) (d : Draft) : Prop :=
  ∃ t c v e, d = .single t ++ v ∧ Connective.ofKindAt? (rank + 1) t.kind = some c ∧
    ReadsOperand rank v e

theorem follows_join {rank : Nat} {parts : List Draft} (h : ∀ part ∈ parts, Joins rank part)
    (c : Copy) {rest : List Token} (hr : Follows (rank + 1) rest) :
    Follows rank ((Draft.join parts).text c ++ rest) := by
  cases parts with
  | nil =>
      rw [Draft.join, Draft.text_empty, List.nil_append]
      exact hr.mono (Nat.le_succ rank)
  | cons part parts =>
      obtain ⟨t, op, v, e, rfl, ht, -⟩ := h part List.mem_cons_self
      obtain ⟨hk, hc⟩ := Connective.ofKindAt?_eq_some_iff.1 ht
      simp only [Draft.join, Draft.text_append, Draft.text_single, List.cons_append,
        List.nil_append]
      exact follows_cons hk (by omega) _

/-- Connectives of one rank with their operands are read after any left operand. -/
theorem reads_more {rank : Nat} {parts : List Draft} (h : ∀ part ∈ parts, Joins rank part)
    (left : Expr) : ∃ e, Reads (more rank left) (.join parts) (Pure.pure e) (Follows (rank + 1)) ∧
      (e = left ∧ parts = [] ∨ ∀ name line, e ≠ .var name line) := by
  induction parts generalizing left with
  | nil =>
      refine ⟨left, fun c rest hr => ?_, .inl ⟨rfl, rfl⟩⟩
      rw [Draft.join, Draft.text_empty, List.nil_append, more_of_follows hr, Draft.faults_empty]
      rfl
  | cons part parts ih =>
      obtain ⟨⟨t, op, v, right, rfl, ht, hv⟩, more⟩ := List.forall_mem_cons.1 h
      obtain ⟨e, reads, same⟩ := ih more (op.join t.line left right)
      refine ⟨e, ?_, .inr ?_⟩
      · rw [Draft.join, Draft.append_assoc]
        exact reads_cons (more_of_some ht left)
          (reads_bind hv.reads reads fun c rest hr => follows_join more c hr)
      · obtain ⟨rfl, -⟩ | other := same
        · intro name line he
          have level := op.level_join t.line left right
          rw [he] at level
          cases level
        · exact other

/-- Operands with connectives of one rank between them are an operand of that rank. -/
theorem readsOperand_joined {rank : Nat} {d : Draft} {e : Expr} {parts : List Draft}
    (h : ReadsOperand rank d e) (hp : ∀ part ∈ parts, Joins rank part) :
    ∃ e', ReadsOperand (rank + 1) (d ++ .join parts) e' := by
  obtain ⟨e', reads, same⟩ := reads_more hp e
  have whole := reads_bind h.reads reads fun c rest hr => follows_join hp c hr
  refine ⟨e', ⟨fun c rest hr => (level_succ rank _).trans (whole c rest hr), ?_, h.begins.append _⟩⟩
  intro name line he
  obtain ⟨rfl, rfl⟩ | other := same
  · rw [Draft.join, Draft.append_empty]
    exact h.bare name line he
  · exact absurd he (other name line)

structure ReadsValue (d : Draft) (e : Expr) : Prop where
  reads : Reads expression d (Pure.pure e) Ends
  begins : d.Begins Kind.beginsExpression

section assignments

variable {d v : Draft} {e value : Expr} {q : Token}

theorem follows_equal (hq : q.kind = .equal) (rank : Nat) (rest : List Token) :
    Follows rank (q :: rest) :=
  follows_of_none (by rw [hq]; rfl) rank rest

theorem readsValue_plain (h : ReadsOperand Connective.loosest d e) : ReadsValue d e where
  reads c rest hr := by
    have target := h.reads.done c (hr.follows _)
    rw [expression_ladder, assignment_of_absent target hr.notNext]
    simp [pure_apply, Reply.after]
  begins := h.begins

theorem readsValue_assigned (h : ReadsOperand Connective.loosest d e) (bare : d.Bare)
    (hq : q.kind = .equal) (hv : ReadsValue v value) :
    ∃ e', ReadsValue (d ++ (.single q ++ v)) e' := by
  obtain ⟨name, line, rfl⟩ := var_of_bare (Nat.le_refl _) h bare
  refine ⟨.assign name line value, fun c rest hr => ?_, h.begins.append _⟩
  have target := h.reads.done c (follows_equal hq _ (v.text c ++ rest))
  have right := hv.reads.done c hr
  have whole : (d ++ (Draft.single q ++ v)).text c ++ rest =
      d.text c ++ q :: (v.text c ++ rest) := by simp
  rw [whole, expression_ladder, assignment_of_var target hq rfl right]
  simp [pure_apply, Reply.after]

/-- In the rough copy the sign is passed over with what is right of it; in the fair one it is not
there. -/
theorem readsValue_misassigned (h : ReadsOperand Connective.loosest d e) (other : ¬ d.Bare)
    (hq : q.kind = .equal) (hv : ReadsValue v value) : ReadsValue (d.misassigned q v) e where
  reads c rest hr := by
    cases c with
    | fair => exact (readsValue_plain h).reads .fair rest hr
    | rough =>
        have target := h.reads.done .rough (follows_equal hq _ (v.text .rough ++ rest))
        have right := hv.reads.done .rough hr
        have whole : (d.misassigned q v).text .rough ++ rest =
            d.text .rough ++ q :: (v.text .rough ++ rest) := by
          simp [Draft.text, Draft.misassigned]
        have no (name : String) (line : Nat) (he : e = .var name line) : False :=
          other (h.bare name line he)
        rw [whole, expression_ladder, assignment_of_other target hq no right]
        simp [pure_apply, Reply.after, Draft.faults, Draft.misassigned]
  begins
    | .rough => by
        obtain ⟨t, more, ht, hk⟩ := h.begins .rough
        exact ⟨t, more ++ q :: v.tokens, congrArg (· ++ q :: v.tokens) ht, hk⟩
    | .fair => h.begins .fair

end assignments

end expressions

end Reader
end Lox
