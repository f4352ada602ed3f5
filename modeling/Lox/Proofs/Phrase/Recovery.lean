import Mathlib.Data.List.Basic
import Lox.Proofs.Phrase.Cut

/-!
Reading without one semicolon. If the semicolon after a plain statement is left out of tokens that
are read without a fault, at most one fault is found, whatever is around the statement, unless the
next token opens or closes another statement; for that token is given up.
-/

namespace Lox

/-- The kinds of the tokens that must not be given up after a fault: each opens or closes a
statement, or part of one, in which there are others. -/
def Kind.structural : Kind → Bool
  | .leftBrace | .rightBrace | .elseWord | .ifWord | .whileWord | .forWord => true
  | _ => false

theorem Stmt.Wording.plain_of_head {u : List Token} {s : Stmt} {tail : Bool} (h : Wording u s tail)
    (next : ∀ n ∈ u.head?, n.kind.structural = false) : s.Plain := by
  cases h with
  | declaring h | evaluating h => exact h.plain
  | print => trivial
  | block h | ifThen h | ifElse h | loop h | forLoop h =>
      simp [h, Kind.structural] at next

namespace Reader

section opening

theorem declaration_of_begins {t : Token} (ht : t.kind.beginsStatement = true)
    (rest : List Token) :
    declaration statement (t :: rest) = statementOf statement (t :: rest) := by
  rw [declaration_of_notNext, statement_eq]
  exact notNext_cons.2 fun hv => by simp [hv, Kind.beginsStatement, Kind.beginsExpression] at ht

theorem read_block {l : Token} (hl : l.kind = .leftBrace) (rest : List Token) :
    declaration statement (l :: rest) = block (declaration statement) rest := by
  rw [declaration_of_begins (by simp [hl, Kind.beginsStatement])]
  simp only [statementOf, hl]

def branches (condition : Expr) : Reader Stmt := do
  let thenBranch ← statement
  match ← take? .elseWord with
  | some _ => return .ifElse condition thenBranch (← statement)
  | none => return .ifThen condition thenBranch

variable {f l r : Token} {w : List Token} {e : Expr} (hl : l.kind = .leftParen)
  (condition : Expr.Wording w e) (hr : r.kind = .rightParen)

include hl condition hr

theorem read_conditional (hf : f.kind = .ifWord) (rest : List Token) :
    declaration statement (f :: l :: (w ++ r :: rest)) = branches e rest := by
  rw [declaration_of_begins (by simp [hf, Kind.beginsStatement])]
  simp only [statementOf, hf]
  exact complete_condition hl condition hr hr _

theorem read_whileLoop (hf : f.kind = .whileWord) (rest : List Token) :
    declaration statement (f :: l :: (w ++ r :: rest)) =
      (do return .loop e (← statement) : Reader Stmt) rest := by
  rw [declaration_of_begins (by simp [hf, Kind.beginsStatement])]
  simp only [statementOf, hf]
  exact complete_condition hl condition hr hr _

omit condition

theorem read_forLoop {c : Token} {w₁ w₂ w₃ : List Token} {first : Option Stmt}
    {condition increment : Option Expr} (hf : f.kind = .forWord)
    (start : Stmt.Starting w₁ first) (test : Stmt.Clause w₂ condition) (hc : c.kind = .semicolon)
    (step : Stmt.Clause w₃ increment) (rest : List Token) :
    declaration statement (f :: l :: (w₁ ++ (w₂ ++ c :: (w₃ ++ r :: rest)))) =
      (do return .forLoop first condition increment (← statement) : Reader Stmt) rest := by
  have clause := complete_clause test c (w₃ ++ r :: rest) (by simp [hc]; rfl)
    (ends_of_semicolon hc _)
  have last := complete_clause step r rest (by simp [hr]; rfl) (ends_of_rightParen hr _)
  rw [hc] at clause
  rw [hr] at last
  rw [declaration_of_begins (by simp [hf, Kind.beginsStatement])]
  simp only [statementOf, hf]
  rw [forLoop, bind_of_clean (expect_of_eq hl _), bind_of_clean (complete_starting start _),
    bind_of_clean clause, bind_of_clean (expect_of_eq hc _), bind_of_clean last,
    bind_of_clean (expect_of_eq hr _)]

end opening

variable {u v y rest : List Token} {t : Token} {s : Stmt} {tail : Bool}

/-- What is no declaration is read alike where declarations can stand and where they cannot. -/
theorem statement_of_cut (h : Stmt.Cut u t v s tail) (hs : s.isDeclaration = false)
    (rest : List Token) : statement (u ++ rest) = declaration statement (u ++ rest) := by
  obtain ⟨n, more, rfl, hn⟩ := h.head
  refine (declaration_of_notNext (notNext_cons.2 fun hv => ?_)).symm
  simp [hv, hs, Kind.beginsStatement, Kind.beginsExpression] at hn

/-- Without its last semicolon a statement runs into what comes after it or fails there. -/
theorem merges_or_stuck (h : Stmt.Cut u t v s tail) (hv : v = []) (next : Next y rest) :
    Merges u y s tail ∨ Stuck u (y ++ rest) := by
  induction h with
  | here h plain => exact merges_or_stuck_of_plain h plain next
  | block | thenBranch => simp at hv
  | @ifThen f l r t w u v e s tail hf hl condition hr hs inside ih =>
      obtain ⟨s', worded, same⟩ | ⟨fault, stuck⟩ := ih hv
      · refine .inl ⟨.ifThen e s', ?_, rfl⟩
        simpa using Stmt.Wording.ifThen hf hl condition hr (same.trans hs) worded
      · have inner := (statement_of_cut inside hs _).trans stuck
        refine .inr ⟨fault, ?_⟩
        simp only [List.cons_append, List.append_assoc]
        rw [read_conditional hl condition hr hf]
        exact bind_of_failed inner _
  | @elseBranch f l r o t w u v x e s s' tail hf hl condition hr hs thenBranch ho hs' inside ih =>
      obtain ⟨s'', worded, same⟩ | ⟨fault, stuck⟩ := ih hv
      · refine .inl ⟨.ifElse e s s'', ?_, rfl⟩
        simpa using Stmt.Wording.ifElse hf hl condition hr hs thenBranch ho (same.trans hs') worded
      · have inner := (statement_of_cut inside hs' _).trans stuck
        have branch : statement (x ++ o :: (u ++ (y ++ rest))) = .done s [] _ :=
          statement_of_readsPart thenBranch hs (complete_stmt thenBranch) nofun
        refine .inr ⟨fault, ?_⟩
        simp only [List.cons_append, List.append_assoc]
        rw [read_conditional hl condition hr hf, branches, bind_of_clean branch,
          bind_of_clean (take?_of_eq ho _)]
        exact bind_of_failed inner _
  | @loop f l r t w u v e s tail hf hl condition hr hs inside ih =>
      obtain ⟨s', worded, same⟩ | ⟨fault, stuck⟩ := ih hv
      · refine .inl ⟨.loop e s', ?_, rfl⟩
        simpa using Stmt.Wording.loop hf hl condition hr (same.trans hs) worded
      · have inner := (statement_of_cut inside hs _).trans stuck
        refine .inr ⟨fault, ?_⟩
        simp only [List.cons_append, List.append_assoc]
        rw [read_whileLoop hl condition hr hf]
        exact bind_of_failed inner _
  | @forLoop f l c r t w₁ w₂ w₃ u v first condition increment s tail hf hl start test hc step hr hs
      inside ih =>
      obtain ⟨s', worded, same⟩ | ⟨fault, stuck⟩ := ih hv
      · refine .inl ⟨.forLoop first condition increment s', ?_, ?_⟩
        · simpa using Stmt.Wording.forLoop hf hl start test hc step hr (same.trans hs) worded
        · rw [isDeclaration_forLoop, isDeclaration_forLoop]
      · have inner := (statement_of_cut inside hs _).trans stuck
        refine .inr ⟨fault, ?_⟩
        simp only [List.cons_append, List.append_assoc]
        rw [read_forLoop hl hr hf start test hc step]
        exact bind_of_failed inner _

def Recovers (x rest : List Token) : Prop :=
  ∃ s passed, declaration statement (x ++ rest) = .done s passed rest ∧ passed.length ≤ 1

section declarations

variable {before after : List (List Token × Stmt × Bool)} {close : Kind}
  (hc : close.beginsStatement = false) (hv : close ≠ .varWord) (he : close ≠ .elseWord)
  (ha : ∀ p ∈ after, Stmt.Wording p.1 p.2.1 p.2.2) (hr : ∀ t ∈ rest.head?, t.kind = close)

include he ha hr in
theorem notNext_else_of_wording : NotNext .elseWord (after.flatMap (·.1) ++ rest) := by
  cases after with
  | nil => exact fun t ht => hr t ht ▸ he
  | cons p after =>
      obtain ⟨n, more, hn, hk⟩ := (ha p (by simp)).head
      rw [List.flatMap_cons, hn, List.append_assoc, List.cons_append, notNext_cons]
      intro none
      simp [none, Kind.beginsStatement, Kind.beginsExpression] at hk

include ha hr in
/-- What comes after a statement among declarations, if it is not structural. -/
theorem exists_next (final : close.structural = true ∨ rest = [])
    (next : ∀ n ∈ (after.flatMap (·.1) ++ rest).head?, n.kind.structural = false) :
    ∃ (y : List Token) (after' : List (List Token × Stmt × Bool)),
      after.flatMap (·.1) ++ rest = y ++ (after'.flatMap (·.1) ++ rest) ∧
      (∀ p ∈ after', Stmt.Wording p.1 p.2.1 p.2.2) ∧ Next y (after'.flatMap (·.1) ++ rest) := by
  cases after with
  | nil =>
      have nothing : rest = [] := by
        cases rest with
        | nil => rfl
        | cons r rest =>
            have closing : r.kind = close := hr r rfl
            have flat : r.kind.structural = false := next r rfl
            rw [closing] at flat
            simp [flat] at final
      subst nothing
      exact ⟨[], [], rfl, ha, .nothing⟩
  | cons p after =>
      obtain ⟨hp, ha⟩ := List.forall_mem_cons.1 ha
      have plain : p.2.1.Plain := by
        refine hp.plain_of_head fun n hn => next n ?_
        rw [List.flatMap_cons, List.append_assoc]
        exact List.mem_head?_append_of_mem_head? hn
      exact ⟨p.1, after, by simp, ha, .plain hp plain _⟩

variable (hb : ∀ p ∈ before, Stmt.Wording p.1 p.2.1 p.2.2) (cut : Stmt.Cut u t v s tail)

include hc hv he hb cut in
/-- Declarations before a statement with a semicolon left out are read as they are. -/
theorem declarations_before_cut (back : List Token) :
    declarations (declaration statement) close (before.flatMap (·.1) ++ (u ++ back)) =
      (declarations (declaration statement) close (u ++ back)).after (before.map (·.2.1)) [] := by
  have clean := complete_declarations close hc hv he [] (by simp) hb
    fun p hp => complete_stmt (hb p hp)
  rw [List.append_nil] at clean
  have noElse : NotNext .elseWord (u ++ back) := by
    obtain ⟨n, more, rfl, hn⟩ := cut.head
    rw [List.cons_append, notNext_cons]
    intro none
    simp [none, Kind.beginsStatement, Kind.beginsExpression] at hn
  have settled := (closes_declaration (closes_statement noElse)).settled
  have shut : Shut (u ++ back) (declaration statement) close (before.flatMap (·.1)) :=
    .inr ⟨settled, by simp [clean], .inl (by rw [clean])⟩
  rw [declarations_append (takes_declaration takes_statement)
    (advances_declaration advances_statement) (local_declaration local_statement) _ shut, clean]
  rfl

include hc hv he ha hr hb cut in
/-- Declarations, one of which has a semicolon left out, are read with at most one fault. -/
theorem declarations_of_cut (final : close.structural = true ∨ rest = [])
    (next : ∀ n ∈ (v ++ (after.flatMap (·.1) ++ rest)).head?, n.kind.structural = false)
    (recovers : v ≠ [] → (∀ n ∈ v.head?, n.kind.structural = false) →
      ∀ rest, (tail = true → NotNext .elseWord rest) → Recovers (u ++ v) rest) :
    ∃ body passed, declarations (declaration statement) close
        (before.flatMap (·.1) ++ (u ++ (v ++ (after.flatMap (·.1) ++ rest)))) =
          ⟨body, passed, rest⟩ ∧ passed.length ≤ 1 := by
  have others {after : List (List Token × Stmt × Bool)}
      (ha : ∀ p ∈ after, Stmt.Wording p.1 p.2.1 p.2.2) :=
    complete_declarations close hc hv he rest hr ha fun p hp => complete_stmt (ha p hp)
  obtain ⟨n, more, hu, hn⟩ := cut.head
  have opens : n.kind ≠ close := by
    rintro rfl
    obtain hn | ⟨hn, -⟩ := hn
    · simp [hc] at hn
    · exact hv hn
  have first (back : List Token) := declarations_cons (takes_declaration takes_statement)
    (advances_declaration advances_statement) (more ++ back) opens
  simp only [← List.cons_append, ← hu] at first
  rw [declarations_before_cut hc hv he hb cut, first]
  by_cases last : v = []
  · -- The statement runs into what comes next, or fails there, and that is given up.
    subst last
    obtain ⟨y, after', follows, ha', next⟩ := exists_next ha hr final next
    rw [List.nil_append, follows]
    obtain ⟨s', worded, -⟩ | ⟨fault, stuck⟩ := merges_or_stuck cut rfl next
    · have read := complete_stmt worded _ fun _ => notNext_else_of_wording he ha' hr
      rw [List.append_assoc] at read
      simp only [read, others ha', Declarations.after]
      exact ⟨_, _, rfl, by simp⟩
    · simp only [stuck, resume_of_next next, others ha', Declarations.after]
      exact ⟨_, _, rfl, by simp⟩
  · have inside : ∀ n ∈ v.head?, n.kind.structural = false :=
      fun n hn => next n (List.mem_head?_append_of_mem_head? hn)
    obtain ⟨s', passed, read, few⟩ := recovers last inside _ fun _ =>
      notNext_else_of_wording he ha hr
    rw [List.append_assoc] at read
    simp only [read, others ha, Declarations.after]
    exact ⟨_, _, rfl, by simpa using few⟩

end declarations

/-- A block, one of whose declarations has a semicolon left out, is read with at most one fault. -/
theorem recovers_block {l r : Token} {before after : List (List Token × Stmt × Bool)}
    (hl : l.kind = .leftBrace) (hr : r.kind = .rightBrace)
    (hb : ∀ p ∈ before, Stmt.Wording p.1 p.2.1 p.2.2) (inside : Stmt.Cut u t v s tail)
    (ha : ∀ p ∈ after, Stmt.Wording p.1 p.2.1 p.2.2)
    (next : ∀ n ∈ (v ++ after.flatMap (·.1) ++ [r]).head?, n.kind.structural = false)
    (recovers : v ≠ [] → (∀ n ∈ v.head?, n.kind.structural = false) →
      ∀ rest, (tail = true → NotNext .elseWord rest) → Recovers (u ++ v) rest)
    (rest : List Token) :
    Recovers (l :: before.flatMap (·.1) ++ u ++ (v ++ after.flatMap (·.1) ++ [r])) rest := by
  have ahead : ∀ n ∈ (v ++ (after.flatMap (·.1) ++ r :: rest)).head?,
      n.kind.structural = false := by
    have longer : v ++ (after.flatMap (·.1) ++ r :: rest) =
        v ++ after.flatMap (·.1) ++ [r] ++ rest := by simp
    rw [longer, List.head?_append_of_ne_nil _ (by simp)]
    exact next
  have closes : ∀ n ∈ (r :: rest).head?, n.kind = .rightBrace := by simp [hr]
  obtain ⟨body, passed, read, few⟩ := declarations_of_cut rfl (by decide) (by decide) ha closes
    hb inside (.inl rfl) ahead recovers
  have whole : blockBody (declaration statement)
      (before.flatMap (·.1) ++ (u ++ (v ++ (after.flatMap (·.1) ++ r :: rest)))) =
        .done body passed (r :: rest) := by
    simp only [blockBody, read]
  refine ⟨.block body, passed, ?_, few⟩
  simp only [List.cons_append, List.append_assoc, List.nil_append]
  rw [read_block hl, block]
  exact bind_of_done whole (bind_of_clean (expect_of_eq hr rest) _)

/-- With a semicolon left out before the end of a statement, that is read with at most one fault. -/
theorem recovers_of_cut (h : Stmt.Cut u t v s tail) (inner : v ≠ [])
    (next : ∀ n ∈ v.head?, n.kind.structural = false) (rest : List Token)
    (hr : tail = true → NotNext .elseWord rest) : Recovers (u ++ v) rest := by
  induction h generalizing rest with
  | here => exact absurd rfl inner
  | block hl hb inside ha hrb ih => exact recovers_block hl hrb hb inside ha next ih rest
  | @ifThen f l r t w u v e s tail hf hl condition hrp hs inside ih =>
      obtain ⟨s', passed, read, few⟩ := ih inner next rest fun _ => hr rfl
      rw [List.append_assoc, ← statement_of_cut inside hs] at read
      refine ⟨.ifThen e s', passed, ?_, few⟩
      simp only [List.cons_append, List.append_assoc]
      rw [read_conditional hl condition hrp hf]
      exact bind_of_done read (bind_of_clean (take?_of_notNext (hr rfl)) _)
  | @thenBranch f l r o t w u v x e s s' tail hf hl condition hrp hs inside ho hs' elseBranch ih =>
      have open' : v ≠ [] := by
        rintro rfl
        simp [ho, Kind.structural] at next
      have ahead : ∀ n ∈ v.head?, n.kind.structural = false :=
        fun n hn => next n (List.mem_head?_append_of_mem_head? hn)
      obtain ⟨s'', passed, read, few⟩ := ih open' ahead (o :: (x ++ rest)) (by simp)
      rw [List.append_assoc, ← statement_of_cut inside hs] at read
      have other := statement_of_readsPart elseBranch hs' (complete_stmt elseBranch) hr
      refine ⟨.ifElse e s'' s', passed, ?_, few⟩
      simp only [List.cons_append, List.append_assoc]
      rw [read_conditional hl condition hrp hf]
      refine bind_of_done read ?_
      rw [bind_of_clean (take?_of_eq ho _)]
      exact bind_of_clean other _
  | @elseBranch f l r o t w u v x e s s' tail hf hl condition hrp hs thenBranch ho hs' inside ih =>
      obtain ⟨s'', passed, read, few⟩ := ih inner next rest hr
      rw [List.append_assoc, ← statement_of_cut inside hs'] at read
      have branch : statement (x ++ o :: (u ++ (v ++ rest))) = .done s [] _ :=
        statement_of_readsPart thenBranch hs (complete_stmt thenBranch) (by simp)
      refine ⟨.ifElse e s s'', passed, ?_, few⟩
      simp only [List.cons_append, List.append_assoc]
      rw [read_conditional hl condition hrp hf, branches, bind_of_clean branch,
        bind_of_clean (take?_of_eq ho _)]
      exact bind_of_done read rfl
  | @loop f l r t w u v e s tail hf hl condition hrp hs inside ih =>
      obtain ⟨s', passed, read, few⟩ := ih inner next rest hr
      rw [List.append_assoc, ← statement_of_cut inside hs] at read
      refine ⟨.loop e s', passed, ?_, few⟩
      simp only [List.cons_append, List.append_assoc]
      rw [read_whileLoop hl condition hrp hf]
      exact bind_of_done read rfl
  | @forLoop f l c r t w₁ w₂ w₃ u v first condition increment s tail hf hl start test hc step hrp hs
      inside ih =>
      obtain ⟨s', passed, read, few⟩ := ih inner next rest hr
      rw [List.append_assoc, ← statement_of_cut inside hs] at read
      refine ⟨.forLoop first condition increment s', passed, ?_, few⟩
      simp only [List.cons_append, List.append_assoc]
      rw [read_forLoop hl hrp hf start test hc step]
      exact bind_of_done read rfl

end Reader

namespace Program

open Token (parens)

theorem body_cons {tokens u : List Token} {t : Token} (h : body tokens = t :: u) :
    ∃ rest, tokens = t :: rest ∧ body rest = u ∧ ∀ more, body (t :: more) = t :: body more := by
  cases tokens with
  | nil => cases h
  | cons t' rest =>
      rw [body, List.takeWhile_cons] at h
      split at h
      · rename_i regular
        cases h
        exact ⟨rest, rfl, rfl, fun more => by rw [body, List.takeWhile_cons, if_pos regular, body]⟩
      · cases h

theorem body_eraseIdx {tokens u v : List Token} {t : Token} (h : body tokens = u ++ t :: v) :
    body (tokens.eraseIdx u.length) = u ++ v := by
  induction u generalizing tokens with
  | nil =>
      obtain ⟨rest, rfl, hv, -⟩ := body_cons h
      exact hv
  | cons n u ih =>
      obtain ⟨rest, rfl, hu, cons⟩ := body_cons h
      rw [List.length_cons, List.eraseIdx_cons_succ, cons, ih hu, List.cons_append]

/-- Without the semicolon of one of its `print` statements, expression statements or declarations, a
program that is read without a fault is read with at most one, unless the next token is
structural. -/
theorem faults_without_semicolon {tokens u v : List Token} {t : Token}
    (h : body tokens = u ++ t :: v) (cut : Cut u t v)
    (next : ∀ n ∈ v.head?, n.kind.structural = false) :
    (ofTokens tokens).faults = [] ∧ (ofTokens (tokens.eraseIdx u.length)).faults.length ≤ 1 := by
  obtain @⟨u, v, t, s, tail, before, after, hb, inside, ha⟩ := cut
  have nothing : ∀ n ∈ ([] : List Token).head?, n.kind = .eof := by simp
  constructor
  · have parts : ∀ p ∈ before ++ (u ++ t :: v, s, tail) :: after,
        Stmt.Wording p.1 p.2.1 p.2.2 :=
      List.forall_mem_append.2 ⟨hb, List.forall_mem_cons.2 ⟨inside.wording, ha⟩⟩
    have worded : Wording (body tokens)
        ((before ++ (u ++ t :: v, s, tail) :: after).map (·.2.1)) :=
      ⟨_, by simp [h], rfl, parts⟩
    rw [ofTokens_of_wording worded]
  · obtain ⟨statements, passed, read, few⟩ := Reader.declarations_of_cut rfl (by decide)
      (by decide) ha nothing hb inside (.inr rfl) (by simpa using next)
      (Reader.recovers_of_cut inside)
    have faults : (ofTokens (tokens.eraseIdx
        (before.flatMap (·.1) ++ u).length)).faults = passed := by
      rw [ofTokens, body_eraseIdx h]
      simp only [List.append_nil, List.append_assoc] at read ⊢
      rw [read]
    rwa [faults]

theorem faults_without_semicolon_of_conditional :
    let tokens := (Lexical.read "if (a) { print b; var c = d; e; } else print f;").tokens
    ∃ u t v, body tokens = u ++ t :: v ∧ Cut u t v ∧ v.head?.map (·.kind) = some .varWord ∧
      (∀ n ∈ v.head?, n.kind.structural = false) ∧ (ofTokens tokens).faults = [] ∧
      (ofTokens (tokens.eraseIdx u.length)).faults.length ≤ 1 := by
  intro tokens
  have clean : (ofTokens tokens).faults = [] := by decide +kernel
  have next : ((body tokens).drop 8).head?.map (·.kind) = some .varWord := by decide +kernel
  have flat : ∀ n ∈ ((body tokens).drop 8).head?, n.kind.structural = false := by decide +kernel
  obtain ⟨t, split, cut⟩ := cut_at (i := 7) clean (by decide +kernel) (by decide +kernel)
  exact ⟨_, t, _, split, cut, next, flat, faults_without_semicolon split cut flat⟩

/-- Some program is read without a fault, but with more than one if a semicolon before a token of
the kind is left out. -/
def Cascades (k : Kind) : Prop :=
  ∃ tokens u t n v, (ofTokens tokens).faults = [] ∧ body tokens = u ++ t :: n :: v ∧
    Cut u t (n :: v) ∧ n.kind = k ∧ 1 < (ofTokens (tokens.eraseIdx u.length)).faults.length

theorem cascades_of_text (text : String) (i : Nat) {k : Kind}
    (h : let tokens := (Lexical.read text).tokens
      (ofTokens tokens).faults = [] ∧ (body tokens)[i]?.map (·.kind) = some .semicolon ∧
        parens ((body tokens).take i) = 0 ∧ (body tokens)[i + 1]?.map (·.kind) = some k ∧
        1 < (ofTokens (tokens.eraseIdx i)).faults.length) : Cascades k := by
  obtain ⟨clean, ht, outside, next, many⟩ := h
  obtain ⟨t, split, cut⟩ := cut_at clean ht outside
  obtain ⟨n, found, hn⟩ := Option.map_eq_some_iff.1 next
  obtain ⟨inside, rfl⟩ := List.getElem?_eq_some_iff.1 found
  rw [List.drop_eq_getElem_cons inside] at split cut
  refine ⟨_, _, t, _, _, clean, split, cut, hn, ?_⟩
  rwa [List.length_take_of_le (by omega)]

/-- Each of the structural kinds has to be excluded. -/
theorem cascades_of_structural {k : Kind} (hk : k.structural = true) : Cascades k := by
  have options : k = .leftBrace ∨ k = .rightBrace ∨ k = .elseWord ∨ k = .ifWord ∨
      k = .whileWord ∨ k = .forWord := by
    cases k <;> simp_all [Kind.structural]
  obtain rfl | rfl | rfl | rfl | rfl | rfl := options
  · exact cascades_of_text "print a; { print b; }" 2 (by decide +kernel)
  · exact cascades_of_text "{ print a; }" 3 (by decide +kernel)
  · exact cascades_of_text "if (a) if (b) print c; else d; else e;" 10 (by decide +kernel)
  · exact cascades_of_text "print a; if (b) c; else d;" 2 (by decide +kernel)
  · exact cascades_of_text "print a; while (b) { c; }" 2 (by decide +kernel)
  · exact cascades_of_text "print a; for (;;) b;" 2 (by decide +kernel)

/-- The closing brace is given up after the statement, and then the block has none. -/
theorem two_faults_without_semicolon :
    let tokens := (Lexical.read "{ print a; }").tokens
    (ofTokens tokens).faults = [] ∧ (∃ u t v, body tokens = u ++ t :: v ∧ Cut u t v ∧
      (ofTokens (tokens.eraseIdx u.length)).faults =
        [⟨.missing .semicolonAfterValue, some ⟨.rightBrace, "\x7d", none, 1⟩⟩,
          ⟨.missing .braceAfterBlock, none⟩]) ∧
      ¬ ∀ tokens u t v, (ofTokens tokens).faults = [] → body tokens = u ++ t :: v → Cut u t v →
        (ofTokens (tokens.eraseIdx u.length)).faults.length ≤ 1 := by
  intro tokens
  have clean : (ofTokens tokens).faults = [] := by decide +kernel
  obtain ⟨t, split, cut⟩ := cut_at (i := 3) clean (by decide +kernel) (by decide +kernel)
  have faults : (ofTokens (tokens.eraseIdx ((body tokens).take 3).length)).faults =
      [⟨.missing .semicolonAfterValue, some ⟨.rightBrace, "\x7d", none, 1⟩⟩,
        ⟨.missing .braceAfterBlock, none⟩] := by decide +kernel
  refine ⟨clean, ⟨_, t, _, split, cut, faults⟩, fun always => ?_⟩
  have few := always tokens _ t _ clean split cut
  rw [faults] at few
  exact absurd few (by decide)

end Program

end Lox
