import Lox.Lexical.Reading
import Lox.Proofs.Phrase.CopiedStatements
import Lox.Proofs.Phrase.Program

/-!
Misplaced signs in programs. The copies of the draft of a program are read as the same statements,
the fair one without a fault, and the rough one with one fault for each misplaced sign.
-/

namespace Lox
namespace Grammar

open Reader

/-- A form covers a draft when the draft can be cut up as it says, into phrases of a given sense. -/
def Form.Covers (S : Nonterminal → Draft → Prop) : Form → Draft → Prop
  | kind k, d => ∃ t, d = .single t ∧ t.kind = k
  | rule n, d => S n d
  | seq a b, d => ∃ d₁ d₂, d = d₁ ++ d₂ ∧ a.Covers S d₁ ∧ b.Covers S d₂
  | alt a b, d => a.Covers S d ∨ b.Covers S d
  | optional a, d => d = .empty ∨ a.Covers S d
  | many a, d => ∃ parts : List Draft, d = .join parts ∧ ∀ part ∈ parts, a.Covers S part

def IsOperand (rank : Nat) (d : Draft) : Prop := ∃ e, ReadsOperand rank d e

def IsValue (d : Draft) : Prop := ∃ e, ReadsValue d e

def CopySense : Nonterminal → Draft → Prop
  | .program, d => ∃ parts : List Draft, d = .join parts ∧
      ∀ part ∈ parts, ∃ q, ReadsDeclaration part q
  | .declaration, d => ∃ q, ReadsDeclaration d q
  | .varDecl, d => ∃ s, ReadsDeclaring d s
  | .statement, d => ∃ q, ReadsStatement d q
  | .expression, d | .assignment, d => IsValue d
  | .logicOr, d => IsOperand 6 d
  | .logicAnd, d => IsOperand 5 d
  | .equality, d => IsOperand 4 d
  | .comparison, d => IsOperand 3 d
  | .term, d => IsOperand 2 d
  | .factor, d => IsOperand 1 d
  | .unary, d | .primary, d => IsOperand 0 d

def JoinsAt (rank : Nat) (a : Form) : Prop :=
  ∀ d, a.Covers CopySense d → ∃ t c, d = .single t ∧ Connective.ofKindAt? rank t.kind = some c

theorem joinsAt_kind {rank : Nat} {k : Kind} {c : Connective}
    (hk : Connective.ofKindAt? rank k = some c) : JoinsAt rank (.kind k) := by
  rintro d ⟨t, rfl, rfl⟩
  exact ⟨t, c, rfl, hk⟩

theorem joinsAt_or {rank : Nat} {a b : Form} (ha : JoinsAt rank a) (hb : JoinsAt rank b) :
    JoinsAt rank (a ||| b) :=
  fun d h => h.elim (ha d) (hb d)

theorem isOperand_of_separated (operand : Nonterminal) {operator : Form} {rank : Nat} {d : Draft}
    (ho : ∀ d, CopySense operand d → IsOperand rank d) (hc : JoinsAt (rank + 1) operator)
    (h : (separated operand operator).Covers CopySense d) : IsOperand (rank + 1) d := by
  obtain ⟨d, _, rfl, hd, parts, rfl, hp⟩ := h
  obtain ⟨e, he⟩ := ho d hd
  refine readsOperand_joined he fun part mem => ?_
  obtain ⟨o, v, rfl, hop, hv⟩ := hp part mem
  obtain ⟨t, c, rfl, ht⟩ := hc o hop
  obtain ⟨right, hr⟩ := ho v hv
  exact ⟨t, c, v, right, rfl, ht, hr⟩

theorem isOperand_of_primary {d : Draft} (h : (production .primary).Covers CopySense d) :
    IsOperand 0 d := by
  have literal {t : Token} {v : Value} (ht : t.value? = some v) : IsOperand 0 (.single t) := by
    refine ⟨_, readsOperand_of_token (.literal ht) (Nat.zero_le _) ?_ (by simp)⟩
    cases hk : t.kind <;> simp [Token.value?, hk] at ht <;> rfl
  obtain (((((⟨t, rfl, ht⟩ | ⟨t, rfl, ht⟩) | ⟨t, rfl, ht⟩) | ⟨t, rfl, ht⟩) | ⟨t, rfl, ht⟩) |
    ⟨_, _, rfl, ⟨_, _, rfl, ⟨l, rfl, hl⟩, e, he⟩, r, rfl, hr⟩) | ⟨t, rfl, ht⟩ := h
  · exact literal (v := t.literal.getD .nil) (by simp [Token.value?, ht])
  · exact literal (v := t.literal.getD .nil) (by simp [Token.value?, ht])
  · exact literal (v := .bool true) (by simp [Token.value?, ht])
  · exact literal (v := .bool false) (by simp [Token.value?, ht])
  · exact literal (v := .nil) (by simp [Token.value?, ht])
  · rw [Draft.append_assoc]
    exact ⟨_, readsOperand_grouping hl hr he.reads⟩
  · exact ⟨_, readsOperand_of_token (.var ht) (Nat.zero_le _) (by rw [ht]; rfl) fun _ _ _ => ht⟩

theorem isValue_of_evaluating {d : Draft}
    (h : (Form.rule .expression ++ .kind .semicolon).Covers CopySense d) :
    ∃ v t e, d = v ++ .single t ∧ ReadsValue v e ∧ t.kind = .semicolon := by
  obtain ⟨v, _, rfl, ⟨e, he⟩, t, rfl, ht⟩ := h
  exact ⟨v, t, e, rfl, he, ht⟩

theorem initializer_of_covers {d : Draft} (h : forStart.Covers CopySense d) :
    ∃ first, Reads initializer d (Pure.pure first) Anything := by
  obtain (⟨s, hs⟩ | h) | ⟨t, rfl, ht⟩ := h
  · exact ⟨some s, reads_initializer_declaring hs⟩
  · obtain ⟨v, t, e, rfl, he, ht⟩ := isValue_of_evaluating h
    exact ⟨_, reads_initializer_evaluating he ht⟩
  · exact ⟨none, reads_initializer_none ht⟩

theorem clause_of_covers {d : Draft} {k : Kind} (hk : k = .semicolon ∨ k = .rightParen)
    (h : (Form.optional (.rule .expression)).Covers CopySense d) :
    ∃ e, Reads (optionalBefore k expression) d (Pure.pure e) (IsNext k) := by
  obtain rfl | ⟨e, he⟩ := h
  · exact ⟨none, reads_clause_none k⟩
  · exact ⟨some e, reads_clause_some hk he⟩

theorem statement_of_covers {d : Draft} (h : (production .statement).Covers CopySense d) :
    ∃ q, ReadsStatement d q := by
  obtain ((((h | h) | h) | h) | h) | h := h
  · obtain ⟨v, t, e, rfl, he, ht⟩ := isValue_of_evaluating h
    exact ⟨_, readsStatement_evaluating he ht⟩
  · obtain ⟨_, _, rfl, ⟨_, _, rfl, ⟨p, rfl, hp⟩, e, he⟩, t, rfl, ht⟩ := h
    rw [Draft.append_assoc]
    exact ⟨_, readsStatement_print hp he ht⟩
  · obtain ⟨_, _, rfl, ⟨_, _, rfl, ⟨l, rfl, hl⟩, parts, rfl, hp⟩, r, rfl, hr⟩ := h
    obtain ⟨s, hs⟩ := readsStatement_block hl hp hr
    rw [Draft.append_assoc]
    exact ⟨_, hs⟩
  · obtain ⟨_, _, rfl, ⟨_, _, rfl, ⟨_, _, rfl, ⟨_, _, rfl, ⟨_, _, rfl, ⟨f, rfl, hf⟩, l, rfl, hl⟩,
      e, he⟩, r, rfl, hr⟩, q, body⟩, ho⟩ := h
    simp only [Draft.append_assoc]
    obtain rfl | ⟨_, _, rfl, ⟨o, rfl, ho⟩, q', other⟩ := ho
    · rw [Draft.append_empty]
      exact ⟨_, readsStatement_ifThen hl he hr body hf⟩
    · exact readsStatement_ifElse hl he hr body hf ho other
  · obtain ⟨_, _, rfl, ⟨_, _, rfl, ⟨_, _, rfl, ⟨_, _, rfl, ⟨f, rfl, hf⟩, l, rfl, hl⟩,
      e, he⟩, r, rfl, hr⟩, q, body⟩ := h
    simp only [Draft.append_assoc]
    exact ⟨_, readsStatement_loop hl he hr body hf⟩
  · obtain ⟨_, _, rfl, ⟨_, _, rfl, ⟨_, _, rfl, ⟨_, _, rfl, ⟨_, _, rfl, ⟨_, _, rfl, ⟨_, _, rfl,
      ⟨f, rfl, hf⟩, l, rfl, hl⟩, hi⟩, hc⟩, t, rfl, ht⟩, hu⟩, r, rfl, hr⟩, q, body⟩ := h
    obtain ⟨first, start⟩ := initializer_of_covers hi
    obtain ⟨condition, test⟩ := clause_of_covers (.inl rfl) hc
    obtain ⟨increment, step⟩ := clause_of_covers (.inr rfl) hu
    simp only [Draft.append_assoc]
    exact ⟨_, readsStatement_forLoop hf hl start test ht step hr body⟩

theorem varDecl_of_covers {d : Draft} (h : (production .varDecl).Covers CopySense d) :
    ∃ s, ReadsDeclaring d s := by
  obtain ⟨_, _, rfl, ⟨_, _, rfl, ⟨_, _, rfl, ⟨w, rfl, hw⟩, n, rfl, hn⟩, ho⟩, t, rfl, ht⟩ := h
  simp only [Draft.append_assoc]
  obtain rfl | ⟨_, _, rfl, ⟨q, rfl, hq⟩, e, he⟩ := ho
  · exact ⟨_, readsDeclaring hw hn reads_initialValue_none ht⟩
  · exact ⟨_, readsDeclaring hw hn (reads_initialValue_some hq he) ht⟩

theorem copySense_closed (n : Nonterminal) (hn : n ≠ .assignment) (d : Draft)
    (h : (production n).Covers CopySense d) : CopySense n d := by
  cases n with
  | program => exact h
  | declaration =>
      obtain ⟨s, hs⟩ | ⟨q, hq⟩ := h
      · exact ⟨_, hs.declaration⟩
      · exact ⟨q, hq.declaration⟩
  | varDecl => exact varDecl_of_covers h
  | statement => exact statement_of_covers h
  | expression => exact h
  | assignment => exact absurd rfl hn
  | logicOr => exact isOperand_of_separated .logicAnd (fun _ h => h) (joinsAt_kind rfl) h
  | logicAnd => exact isOperand_of_separated .equality (fun _ h => h) (joinsAt_kind rfl) h
  | equality =>
      exact isOperand_of_separated .comparison (fun _ h => h)
        (joinsAt_or (joinsAt_kind rfl) (joinsAt_kind rfl)) h
  | comparison =>
      exact isOperand_of_separated .term (fun _ h => h)
        (joinsAt_or (joinsAt_or (joinsAt_or (joinsAt_kind rfl) (joinsAt_kind rfl))
          (joinsAt_kind rfl)) (joinsAt_kind rfl)) h
  | term =>
      exact isOperand_of_separated .factor (fun _ h => h)
        (joinsAt_or (joinsAt_kind rfl) (joinsAt_kind rfl)) h
  | factor =>
      exact isOperand_of_separated .unary (fun _ h => h)
        (joinsAt_or (joinsAt_kind rfl) (joinsAt_kind rfl)) h
  | unary =>
      obtain ⟨_, _, rfl, ⟨t, rfl, ht⟩ | ⟨t, rfl, ht⟩, e, he⟩ | hp := h
      · have sign : UnaryOp.ofKind? t.kind = some .not := by rw [ht]; rfl
        exact ⟨_, readsOperand_sign sign he⟩
      · have sign : UnaryOp.ofKind? t.kind = some .negate := by rw [ht]; rfl
        exact ⟨_, readsOperand_sign sign he⟩
      · exact hp
  | primary => exact isOperand_of_primary h

/-- The copies of a draft are read as its phrase says. -/
theorem covers_of_drafted {a : Form} {d : Draft} (h : Drafted a d) : a.Covers CopySense d := by
  induction h with
  | kind t => exact ⟨t, rfl, rfl⟩
  | rule hn _ ih => exact copySense_closed _ hn _ ih
  | plain _ ih =>
      obtain ⟨e, he⟩ := ih
      exact ⟨e, readsValue_plain he⟩
  | assigned _ bare hq _ ihl ihv =>
      obtain ⟨e, he⟩ := ihl
      obtain ⟨v, hv⟩ := ihv
      exact readsValue_assigned he bare hq hv
  | misassigned _ other hq _ ihl ihv =>
      obtain ⟨e, he⟩ := ihl
      obtain ⟨v, hv⟩ := ihv
      exact ⟨e, readsValue_misassigned he other hq hv⟩
  | seq _ _ iha ihb => exact ⟨_, _, rfl, iha, ihb⟩
  | left _ ih => exact .inl ih
  | right _ ih => exact .inr ih
  | absent => exact .inl rfl
  | present _ ih => exact .inr ih
  | stop => exact ⟨[], rfl, by simp⟩
  | again _ _ ih ihr =>
      obtain ⟨parts, rfl, hp⟩ := ihr
      exact ⟨_ :: parts, rfl, List.forall_mem_cons.2 ⟨ih, hp⟩⟩

end Grammar

namespace Program

open Grammar Reader

/-- Tokens are read as a draft says: with a fault at each misplaced sign and no other one, and as
the statements that what is kept is read as without a fault. -/
structure ReadAsDrafted (tokens : List Token) (d : Draft) : Prop where
  kept : d.kept.Sublist (body tokens)
  faults : (ofTokens tokens).faults = d.signs.map fun q => ⟨.invalidTarget, some q⟩
  diagnostics : (ofTokens tokens).diagnostics = d.signs.map fun q =>
    ⟨.invalidTarget, q.line, .lexeme q.lexeme, "Invalid assignment target."⟩
  signs : ∀ q ∈ d.signs, q.kind = .equal
  statements : ∀ mark, mark.kind = .eof →
    ofTokens (d.kept ++ [mark]) = ⟨(ofTokens tokens).statements, [], mark.line⟩

theorem readAsDrafted {tokens : List Token} {d : Draft} (h : Drafted (.rule .program) d)
    (ht : d.tokens = body tokens) : ReadAsDrafted tokens d := by
  obtain ⟨kept, signs⟩ := h.deletes
  rw [ht] at kept
  obtain ⟨parts, rfl, hp⟩ : CopySense .program d := covers_of_drafted h
  have other : Kind.eof ≠ .varWord ∧ Kind.eof ≠ .elseWord := by decide
  obtain ⟨statements, read⟩ := reads_declarations hp rfl other.1 other.2
  have rough := read .rough [] (by simp)
  have fair := read .fair [] (by simp)
  simp only [List.append_nil, Draft.text] at rough fair
  have whole : ofTokens tokens =
      ⟨statements, (Draft.join parts).faults .rough, lineOfEnd tokens⟩ := by
    rw [ofTokens, ← ht, rough]
  refine ⟨kept, by rw [whole]; rfl, ?diagnostics, signs, fun mark hm => ?statements⟩
  case diagnostics =>
    rw [whole, Program.diagnostics, Draft.faults, List.map_map]
    rfl
  case statements =>
    have regular : ∀ t ∈ (Draft.join parts).kept, t.kind ≠ .eof := fun t mem =>
      not_eof_of_mem_body (kept.subset mem)
    rw [ofTokens, body_append_eof regular hm, lineOfEnd_append_eof regular hm, fair, whole]
    rfl

/-- Whatever the relaxed grammar derives has a draft, and is read as all its drafts say. -/
theorem drafts_of_relaxed {tokens : List Token}
    (h : DerivesBy relaxed (.rule .program) ((body tokens).map Token.kind)) :
    (∃ d, Drafted (.rule .program) d ∧ d.tokens = body tokens) ∧
      ∀ d, Drafted (.rule .program) d → d.tokens = body tokens → ReadAsDrafted tokens d :=
  ⟨derivesBy_iff_exists_draft.1 h, fun _ hd ht => readAsDrafted hd ht⟩

theorem drafts_of_relaxed_nested :
    let tokens := (Lexical.read "1 =\n(a) =\n2;").tokens
    DerivesBy relaxed (.rule .program) ((body tokens).map Token.kind) ∧
      ∃ d, Drafted (.rule .program) d ∧ d.tokens = body tokens ∧ ReadAsDrafted tokens d ∧
        d.signs.map Token.line = [2, 1] := by
  intro tokens
  have kinds : (body tokens).map Token.kind = [.number, .equal, .leftParen, .identifier,
      .rightParen, .equal, .number, .semicolon] := by decide +kernel
  have number : DerivesBy relaxed (.rule .logicOr) [.number] :=
    derivesBy_logicOr (.rule (.left (.left (.left (.left (.left (.left (.kind _))))))))
  have name : DerivesBy relaxed (.rule .logicOr) [.identifier] :=
    derivesBy_logicOr (.rule (.right (.kind _)))
  have inner : DerivesBy relaxed (.rule .expression) [.identifier] := .rule (derivesBy_plain name)
  have primary : DerivesBy relaxed (.rule .primary)
      ([.leftParen] ++ [.identifier] ++ [.rightParen]) :=
    .rule (.left (.right (.seq (.seq (.kind .leftParen) inner) (.kind .rightParen))))
  have grouping : DerivesBy relaxed (.rule .logicOr) [.leftParen, .identifier, .rightParen] :=
    derivesBy_logicOr primary
  have value := derivesBy_assigned number (derivesBy_assigned grouping (derivesBy_plain number))
  have statement : DerivesBy relaxed (.rule .statement) (_ ++ [.semicolon]) :=
    .rule (.left (.left (.left (.left (.left (.seq (.rule value) (.kind .semicolon)))))))
  have program : DerivesBy relaxed (.rule .program) (_ ++ []) :=
    .rule (.again (.rule (.right statement)) .stop)
  have derived : DerivesBy relaxed (.rule .program) ((body tokens).map Token.kind) := by
    rw [kinds]
    exact program
  obtain ⟨⟨d, drafted, same⟩, read⟩ := drafts_of_relaxed derived
  have asDrafted := read d drafted same
  have lines : (ofTokens tokens).faults.map (fun f => (f.found.map Token.line).getD 0) =
      [2, 1] := by
    decide +kernel
  refine ⟨derived, d, drafted, same, asDrafted, ?_⟩
  rw [asDrafted.faults, List.map_map] at lines
  exact lines

end Program
end Lox
