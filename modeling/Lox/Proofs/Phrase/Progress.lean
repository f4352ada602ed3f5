import Lox.Proofs.Phrase.Composition
import Lox.Proofs.Phrase.Program
import Lox.Proofs.Phrase.Turns

/-!
Progress in reading. Whatever tokens are given, reading comes to its end by itself and at the first
end mark, every turn of it takes a token, and there are no more faults and statements than tokens:
a fault is paid for by a token that was taken on the way to it or is given up after it.
-/

namespace Lox
namespace Reader

variable {α : Type}

/-- A reader that takes more tokens than it passes over faults, if it passes over any. -/
structure Thrifty (p : Reader α) : Prop where
  takes : Takes p
  spends : ∀ tokens, (p tokens).passed = [] ∨
    (p tokens).passed.length + (p tokens).rest.length < tokens.length

variable {one : Reader Stmt} {close : Kind}

/-- A turn takes a token for every fault that it passes over, and one more. -/
theorem Turns.length_le {tokens : List Token} {d : Declarations} (thrifty : Thrifty one)
    (advances : Advances one) (h : Turns one close tokens d) :
    d.statements.length + d.passed.length + d.rest.length ≤ tokens.length := by
  induction h with
  | ends => simp
  | @reads t rest left s passed d _ read _ ih =>
      have taken := advances _ _ _ _ read
      have spent := thrifty.spends (t :: rest)
      simp only [read, Reply.passed, Reply.rest] at spent
      simp only [Declarations.after, List.length_append, List.length_singleton]
      obtain rfl | spent := spent
      · simp only [List.length_nil]
        omega
      · omega
  | @recovers t rest left fault passed d _ stuck _ ih =>
      have given := (resume_suffix left).length_le
      have taken := length_resume_lt_of_failed thrifty.takes (List.cons_ne_nil t rest) stuck
      have spent := thrifty.spends (t :: rest)
      simp only [stuck, Reply.passed, Reply.rest] at spent
      simp only [Declarations.after, List.length_append, List.length_singleton, List.length_nil]
      obtain rfl | spent := spent
      · simp only [List.length_nil]
        omega
      · omega

theorem thrifty_bind {β : Type} {p : Reader α} {f : α → Reader β} (hp : Thrifty p)
    (hf : ∀ a, Thrifty (f a)) : Thrifty (p >>= f) where
  takes := takes_bind hp.takes fun a => (hf a).takes
  spends tokens := by
    have first := hp.spends tokens
    cases hc : p tokens with
    | failed fault passed left =>
        rw [bind_apply, hc]
        rwa [hc] at first
    | done a passed left =>
        have taken := hp.takes.length_le hc
        have more := ((hf a).takes left).length_le
        have second := (hf a).spends left
        simp only [after_of_done hc, Reply.passed_after, Reply.rest_after, List.length_append]
        simp only [hc, Reply.passed_done, Reply.rest_done] at first
        obtain nothing | second := second
        · rw [nothing, List.append_nil, List.length_nil]
          exact first.imp_right fun first => by omega
        · refine .inr ?_
          obtain rfl | first := first
          · rw [List.length_nil]
            omega
          · omega

/-- Both sides of an assignment together leave a token to spare, since one is taken before the
sign. -/
theorem Thrifty.sides_lt {left value : Reader Expr} (hl : Thrifty left) (hv : Thrifty value)
    (advances : Advances left) {tokens rest : List Token} {target : Expr} {passed : List Fault}
    {q : Token} (h : left tokens = .done target passed (q :: rest)) :
    passed.length + (value rest).passed.length + (value rest).rest.length + 1 < tokens.length := by
  have taken := advances _ _ _ _ h
  have suffix := (hv.takes rest).length_le
  have first := hl.spends tokens
  simp only [h, Reply.passed_done, Reply.rest_done, List.length_cons] at first taken
  have behind : (value rest).passed.length + (value rest).rest.length ≤ rest.length := by
    obtain nothing | second := hv.spends rest
    · rwa [nothing, List.length_nil, Nat.zero_add]
    · exact Nat.le_of_lt second
  obtain rfl | first := first
  · rw [List.length_nil]
    omega
  · omega

/-- The sign of an assignment pays for the fault at it. -/
theorem thrifty_assignment {left value : Reader Expr} (hl : Thrifty left) (hv : Thrifty value)
    (advances : Advances left) : Thrifty (assignment left value) where
  takes := takes_assignment hl.takes hv.takes
  spends tokens := by
    have first := hl.spends tokens
    apply assignment_cases (motive := fun r => r.passed = [] ∨
      r.passed.length + r.rest.length < tokens.length) left value tokens
    case stuck =>
      intro fault passed rest h
      rwa [h] at first
    case absent =>
      intro target passed rest h
      rwa [h] at first
    case unread =>
      intro target passed q rest fault passed' last h _ unread
      have sides := hl.sides_lt hv advances h
      simp only [unread, Reply.passed_failed, Reply.rest_failed, List.length_append] at sides ⊢
      omega
    case assigned =>
      intro name line passed q rest e passed' last h _ read
      have sides := hl.sides_lt hv advances h
      simp only [read, Reply.passed_done, Reply.rest_done, List.length_append] at sides ⊢
      omega
    case other =>
      intro target passed q rest e passed' last h _ read
      have sides := hl.sides_lt hv advances h
      simp only [read, Reply.passed_done, Reply.rest_done, List.length_append, List.length_cons,
        List.length_nil] at sides ⊢
      omega

/-- The opening brace of a block pays for the block. -/
theorem thrifty_braced (thrifty : Thrifty one) (advances : Advances one) :
    Thrifty (braced one) where
  takes := takes_bind (takes_take _ _) fun _ => takes_block thrifty.takes
  spends tokens := by
    apply braced_cases (motive := fun r => r.passed = [] ∨
      r.passed.length + r.rest.length < tokens.length) thrifty.takes advances
    case shut => exact .inl rfl
    case ends =>
      rintro l rest d rfl - turns last
      have body := turns.length_le thrifty advances
      simp only [Reply.passed, Reply.rest, List.length_cons, List.length_nil]
      omega
    case closes =>
      rintro l rest d r back rfl - turns last -
      have body := turns.length_le thrifty advances
      rw [last, List.length_cons] at body
      simp only [Reply.passed, Reply.rest, List.length_cons]
      omega

theorem thrifty_pervasive : Pervasive Thrifty where
  pure value := ⟨takes_pure value, fun _ => .inl rfl⟩
  fail _ := ⟨takes_fail _, fun _ => .inl rfl⟩
  peek := ⟨takes_peek, fun _ => .inl rfl⟩
  bind := thrifty_bind
  branch {α p} nil cons := by
    have each (tokens : List Token) : (p tokens).rest <:+ tokens ∧ ((p tokens).passed = [] ∨
        (p tokens).passed.length + (p tokens).rest.length < tokens.length) := by
      cases tokens with
      | nil =>
          obtain ⟨q, hq, same⟩ := nil
          exact same ▸ ⟨hq.takes [], hq.spends []⟩
      | cons t rest =>
          obtain ⟨q, hq, same | same⟩ := cons t
          · rw [same rest]
            refine ⟨(hq.takes rest).trans (List.suffix_cons t rest), (hq.spends rest).imp_right ?_⟩
            exact fun spent => Nat.lt_succ_of_lt spent
          · exact same rest ▸ ⟨hq.takes (t :: rest), hq.spends (t :: rest)⟩
    exact ⟨fun tokens => (each tokens).1, fun tokens => (each tokens).2⟩
  within h same :=
    ⟨fun tokens => same (Nat.le_refl tokens.length) ▸ (h tokens.length).takes tokens,
      fun tokens => same (Nat.le_refl tokens.length) ▸ (h tokens.length).spends tokens⟩
  assignment hl hv _ advances _ _ := thrifty_assignment hl hv advances
  braced hp _ advances := thrifty_braced hp advances

/-- What is left after one turn of reading declarations: one is read, or a fault is found and what
is wrong is given up. -/
def turn (one : Reader Stmt) (tokens : List Token) : List Token :=
  match one tokens with
  | .done _ _ left => left
  | .failed _ _ left => resume left

/-- A turn takes a token, however it ends. -/
theorem turn_takes (takes : Takes one) (advances : Advances one) (tokens : List Token) :
    turn one tokens <:+ tokens ∧ (tokens ≠ [] → (turn one tokens).length < tokens.length) := by
  have suffix := takes tokens
  rw [turn]
  cases h : one tokens with
  | done s passed left =>
      rw [h] at suffix
      exact ⟨suffix, fun _ => advances _ _ _ _ h⟩
  | failed fault passed left =>
      rw [h] at suffix
      exact ⟨(resume_suffix left).trans suffix, fun some => length_resume_lt_of_failed takes some h⟩

end Reader

namespace Program

open Reader

/-- Where the first end mark stands; the number of tokens if there is none. -/
def endIndex (tokens : List Token) : Nat := tokens.findIdx (·.kind == .eof)

def cursor (tokens left : List Token) : Nat := (body tokens).length - left.length

theorem length_body (tokens : List Token) : (body tokens).length = endIndex tokens := by
  induction tokens with
  | nil => rfl
  | cons t rest ih =>
      by_cases h : t.kind = .eof
      · simp [body, endIndex, List.findIdx_cons, h]
      · have goes : (t.kind == .eof) = false := by simpa using h
        simpa [body, endIndex, List.takeWhile_cons, List.findIdx_cons, bne, goes] using ih

theorem cursor_lt {tokens left later : List Token} (h : left <:+ body tokens)
    (shorter : later.length < left.length) : cursor tokens left < cursor tokens later := by
  have := h.length_le
  simp only [cursor]
  omega

/-- The reading of tokens as a program goes on to its end, whatever the tokens are. -/
structure Progresses (tokens : List Token) : Prop where
  /-- Wherever they begin, expressions and statements are read to their ends: no bound on their
  tokens that holds of them changes what is read. -/
  unbounded : ∀ left, left <:+ body tokens → ∀ n, left.length ≤ n →
    expressionWithin n left = expression left ∧ statementWithin n left = statement left
  /-- Reading them moves the cursor forward only. -/
  forward : ∀ left, left <:+ body tokens →
    (expression left).rest <:+ left ∧ (statement left).rest <:+ left
  /-- Wherever they begin, in a block or outside, declarations are read turn by turn until a closing
  token or the end is next. -/
  turns : ∀ left, left <:+ body tokens → ∀ close, Turns (declaration statement) close left
    (declarations (declaration statement) close left)
  /-- Every turn moves the cursor on, though not past the first end mark. -/
  advances : ∀ left, left <:+ body tokens → left ≠ [] →
    turn (declaration statement) left <:+ left ∧
      cursor tokens left < cursor tokens (turn (declaration statement) left) ∧
        cursor tokens (turn (declaration statement) left) ≤ endIndex tokens
  /-- When all is read, the cursor is at the first end mark. -/
  ends : cursor tokens (declarations (declaration statement) .eof (body tokens)).rest =
    endIndex tokens
  /-- There are no more faults and statements than tokens before the first end mark. -/
  charged : (ofTokens tokens).faults.length + (ofTokens tokens).statements.length ≤
    endIndex tokens

theorem progresses (tokens : List Token) : Progresses tokens := by
  have takes := takes_declaration takes_statement
  have advances := advances_declaration advances_statement
  have thrifty := thrifty_pervasive.declaration thrifty_pervasive.statement
  have turns (left : List Token) (close : Kind) := (turns_iff takes advances).2
    (rfl : declarations (declaration statement) close left = _)
  refine ⟨fun left _ n h => ⟨expressionWithin_eq h, statementWithin_eq h⟩,
    fun left _ => ⟨takes_expression left, takes_statement left⟩,
    fun left _ close => turns left close, ?advances, ?ends, ?charged⟩
  case advances =>
    intro left inside some
    obtain ⟨suffix, shorter⟩ := turn_takes takes advances left
    exact ⟨suffix, cursor_lt inside (shorter some), length_body tokens ▸ Nat.sub_le _ _⟩
  case ends => rw [rest_nil, cursor, length_body, List.length_nil, Nat.sub_zero]
  case charged =>
    have charged := (turns (body tokens) .eof).length_le thrifty advances
    rw [rest_nil, List.length_nil, Nat.add_zero, length_body, Nat.add_comm] at charged
    exact charged

end Program
end Lox
