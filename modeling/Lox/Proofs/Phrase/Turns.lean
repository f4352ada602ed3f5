import Lox.Proofs.Phrase.Completeness
import Lox.Proofs.Phrase.Composition

/-!
Reading declarations turn by turn. The reader of declarations counts its turns, but the count never
ends its work: it goes on until a closing token or the end is next, and every turn takes a token. So
what holds of declarations is proved along the turns.
-/

namespace Lox
namespace Reader

/-- Declarations up to a token of a kind or the end, however many turns that takes: a turn reads one
declaration, or finds one fault and gives up what is wrong. -/
inductive Turns (one : Reader Stmt) (close : Kind) : List Token → Declarations → Prop
  | ends {tokens : List Token} (closes : ∀ t ∈ tokens.head?, t.kind = close) :
      Turns one close tokens ⟨[], [], tokens⟩
  | reads {t : Token} {rest left : List Token} {s : Stmt} {passed : List Fault} {d : Declarations}
      (goes : t.kind ≠ close) (read : one (t :: rest) = .done s passed left)
      (later : Turns one close left d) : Turns one close (t :: rest) (d.after [s] passed)
  | recovers {t : Token} {rest left : List Token} {fault : Fault} {passed : List Fault}
      {d : Declarations} (goes : t.kind ≠ close)
      (stuck : one (t :: rest) = .failed fault passed left)
      (later : Turns one close (resume left) d) :
      Turns one close (t :: rest) (d.after [] (passed ++ [fault]))

variable {one : Reader Stmt} {close : Kind}

theorem Turns.suffix {tokens : List Token} {d : Declarations} (takes : Takes one)
    (h : Turns one close tokens d) : d.rest <:+ tokens := by
  induction h with
  | ends => exact List.suffix_rfl
  | @reads t rest left _ _ _ _ read _ ih =>
      have suffix := takes (t :: rest)
      rw [read] at suffix
      exact ih.trans suffix
  | @recovers t rest left _ _ _ _ stuck _ ih =>
      have suffix := takes (t :: rest)
      rw [stuck] at suffix
      exact ih.trans ((resume_suffix left).trans suffix)

/-- There is one way of reading declarations turn by turn, and it is found. -/
theorem turns_iff (takes : Takes one) (advances : Advances one) {tokens : List Token}
    {d : Declarations} : Turns one close tokens d ↔ declarations one close tokens = d := by
  constructor
  · intro h
    induction h with
    | ends closes => exact declarations_of_closes closes
    | reads goes read _ ih => simp only [declarations_cons takes advances _ goes, read, ih]
    | recovers goes stuck _ ih => simp only [declarations_cons takes advances _ goes, stuck, ih]
  · rintro rfl
    induction hn : tokens.length using Nat.strongRecOn generalizing tokens with
    | _ n ih =>
      cases tokens with
      | nil => exact .ends (by simp)
      | cons t rest =>
          by_cases goes : t.kind = close
          · rw [declarations_close one rest goes]
            exact .ends (by simpa using goes)
          · rw [declarations_cons takes advances rest goes]
            cases hd : one (t :: rest) with
            | done s passed left =>
                have shorter := advances _ _ _ _ hd
                exact .reads goes hd (ih left.length (hn ▸ shorter) rfl)
            | failed fault passed left =>
                have shorter := length_resume_lt_of_failed takes (List.cons_ne_nil t rest) hd
                exact .recovers goes hd (ih (resume left).length (hn ▸ shorter) rfl)

/-- All that the reader of blocks can answer. -/
theorem braced_cases {motive : Reply Stmt → Prop} (takes : Takes one) (advances : Advances one)
    (tokens : List Token) (shut : motive (.failed ⟨.noExpression, tokens.head?⟩ [] tokens))
    (ends : ∀ l rest d, tokens = l :: rest → l.kind = .leftBrace →
      Turns one .rightBrace rest d → d.rest = [] →
      motive (.failed ⟨.missing .braceAfterBlock, none⟩ d.passed []))
    (closes : ∀ l rest d r back, tokens = l :: rest → l.kind = .leftBrace →
      Turns one .rightBrace rest d → d.rest = r :: back → r.kind = .rightBrace →
      motive (.done (.block d.statements) d.passed back)) :
    motive (braced one tokens) := by
  cases tokens with
  | nil => exact shut
  | cons l rest =>
      by_cases hk : l.kind = .leftBrace
      · have turns := (turns_iff takes advances).2 (rfl : declarations one .rightBrace rest = _)
        have last := declarations_rest takes advances .rightBrace rest
        have body : blockBody one rest = .done (declarations one .rightBrace rest).statements
          (declarations one .rightBrace rest).passed (declarations one .rightBrace rest).rest := rfl
        rw [braced, bind_of_clean (take_clean_iff.2 ⟨rfl, hk⟩), block, after_of_done body]
        generalize declarations one .rightBrace rest = d at turns last
        cases hd : d.rest with
        | nil =>
            rw [bind_of_failed (p := expect .braceAfterBlock) rfl]
            simpa [Reply.after] using ends l rest d rfl hk turns hd
        | cons r back =>
            have hr : r.kind = .rightBrace := last r (by simp [hd])
            rw [bind_of_clean (expect_of_eq hr back)]
            simpa [pure_apply, Reply.after] using closes l rest d r back rfl hk turns hd hr
      · rw [braced, bind_of_failed (p := take .leftBrace .noExpression)]
        · exact shut
        · simp [take, hk, fail]

end Reader
end Lox
