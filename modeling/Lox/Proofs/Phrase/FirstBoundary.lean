import Mathlib.Order.Bounds.Basic
import Lox.Proofs.Phrase.Cursor
import Lox.Proofs.Phrase.Progress

/-!
Where reading goes on after a fault. The cursor leaves the token at which the fault was found, even
if that could begin a statement, and stops at the first place behind it from which reading can go
on. Which places these are depends on the tokens only, not on how they were come to.
-/

namespace Lox

/-- The places among tokens from which reading can go on after a fault: the end, the place behind
a semicolon, and that of a word with which a statement or a declaration begins. -/
inductive Program.ResumesAt (tokens : List Token) : Nat → Prop
  | ends : ResumesAt tokens (endIndex tokens)
  | semicolon {i : Nat} {t : Token} (found : tokens[i]? = some t) (ht : t.kind = .semicolon) :
      ResumesAt tokens (i + 1)
  | word {i : Nat} {t : Token} (found : tokens[i]? = some t)
      (ht : t.kind ∈ [.classWord, .funWord, .varWord, .forWord, .ifWord, .whileWord, .printWord,
        .returnWord]) : ResumesAt tokens i

namespace Cursor

open Program (body endIndex length_body ResumesAt)

variable {tokens : List Token}

theorem position_add_length_ahead (c : Cursor tokens) :
    c.position + c.ahead.length = endIndex tokens := by
  have whole := congrArg List.length c.take_append_ahead
  rwa [List.length_append, List.length_take_of_le c.inside, length_body] at whole

theorem isAtEnd_iff {c : Cursor tokens} : c.isAtEnd = true ↔ c.position = endIndex tokens := by
  have whole := c.position_add_length_ahead
  obtain ⟨ending, nothing⟩ | ⟨going, next⟩ := c.ahead_cases
  · simpa [ending, nothing] using whole
  · rw [next, List.length_cons] at whole
    simp only [going, Bool.false_eq_true, false_iff]
    omega

theorem previous?_eq_some_iff {c : Cursor tokens} {t : Token} :
    c.previous? = some t ↔ ∃ i, c.position = i + 1 ∧ tokens[i]? = some t := by
  rw [previous?]
  cases c.position <;> simp

/-- What a cursor sees at its place and before it tells whether reading can go on from there. -/
theorem isBoundary_iff {c : Cursor tokens} :
    c.isBoundary = true ↔ ResumesAt tokens c.position := by
  constructor
  · intro stop
    cases going : c.isAtEnd with
    | true => exact isAtEnd_iff.1 going ▸ .ends
    | false =>
        have here : c.previous?.map Token.kind = some .semicolon ∨
            Reader.boundary.contains c.current.kind = true := by
          simpa [isBoundary, going] using stop
        obtain behind | word := here
        · obtain ⟨t, before, ht⟩ := Option.map_eq_some_iff.1 behind
          obtain ⟨i, hi, found⟩ := previous?_eq_some_iff.1 before
          exact hi ▸ .semicolon found ht
        · exact .word (getElem?_position going) (KindSet.contains_ofList.1 word)
  · intro resumes
    generalize hq : c.position = q at resumes
    cases resumes with
    | ends => exact isBoundary_of_isAtEnd (isAtEnd_iff.2 hq)
    | semicolon found ht => simp [isBoundary, previous?_eq_some_iff.2 ⟨_, hq, found⟩, ht]
    | @word _ t found ht =>
        have here : c.current = t := by rw [current, hq, found, Option.getD_some]
        have member : Reader.boundary.contains t.kind = true := KindSet.contains_ofList.2 ht
        simp [isBoundary, here, member]

theorem isLeast_toBoundary (c : Cursor tokens) :
    IsLeast {q | c.position ≤ q ∧ ResumesAt tokens q} c.toBoundary.position := by
  induction c using toBoundary.induct with
  | case1 c stop =>
      rw [toBoundary, if_pos stop]
      exact ⟨⟨Nat.le_refl _, isBoundary_iff.1 stop⟩, fun q later => later.1⟩
  | case2 c go ih =>
      have going : c.isAtEnd = false := Bool.eq_false_iff.2 fun h => go (isBoundary_of_isAtEnd h)
      rw [position_advance going] at ih
      rw [toBoundary, if_neg go]
      obtain ⟨⟨later, resumes⟩, least⟩ := ih
      refine ⟨⟨Nat.le_of_succ_le later, resumes⟩, ?_⟩
      rintro q ⟨hq, possible⟩
      -- The cursor is at no boundary itself, so that the bound on `q` is strict.
      have other : c.position ≠ q := fun same => go (isBoundary_iff.2 (same ▸ possible))
      exact least ⟨Nat.lt_of_le_of_ne hq other, possible⟩

/-- After a fault reading goes on at the first place behind the cursor from which it can; at the end
the cursor stays. With the tokens ahead of the cursor, up to the first end mark, the readers go on
where the cursor does. -/
theorem isLeast_synchronize (c : Cursor tokens) :
    (c.isAtEnd = true → c.synchronize = c) ∧
      (c.isAtEnd = false →
        IsLeast {q | c.position < q ∧ ResumesAt tokens q} c.synchronize.position) ∧
      Reader.resume (body (tokens.drop c.position)) =
        body (tokens.drop c.synchronize.position) := by
  refine ⟨synchronize_of_isAtEnd, fun going => ?_, c.ahead_synchronize.symm⟩
  have first := c.advance.isLeast_toBoundary
  rwa [position_advance going] at first

/-- Three faults one after the other. Behind the first there is a word that may begin a statement,
like the one at which it was found; behind the second a semicolon; behind the third the first of two
end marks. -/
theorem isLeast_synchronize_in_turn :
    let tokens := (Lexical.read "print print 1; x y").tokens ++ (Lexical.read "; print").tokens
    let first : Cursor tokens := .start tokens
    let second := first.synchronize
    let third := second.synchronize
    let last := third.synchronize
    (first.isAtEnd = false ∧ IsLeast {q | 0 < q ∧ ResumesAt tokens q} 1) ∧
      (second.isAtEnd = false ∧ IsLeast {q | 1 < q ∧ ResumesAt tokens q} 4) ∧
      (third.isAtEnd = false ∧ IsLeast {q | 4 < q ∧ ResumesAt tokens q} 6) ∧
      last.isAtEnd = true ∧ last.synchronize = last := by
  intro tokens first second third last
  have going : first.isAtEnd = false ∧ second.isAtEnd = false ∧ third.isAtEnd = false := by
    decide +kernel
  have ending : last.isAtEnd = true := by decide +kernel
  have places : second.position = 1 ∧ third.position = 4 ∧ last.position = 6 := by decide +kernel
  obtain ⟨hs, ht, hl⟩ := places
  have behindFirst := (isLeast_synchronize first).2.1 going.1
  have behindSecond := (isLeast_synchronize second).2.1 going.2.1
  have behindThird := (isLeast_synchronize third).2.1 going.2.2
  rw [hs] at behindSecond
  rw [ht] at behindThird
  exact ⟨⟨going.1, hs ▸ behindFirst⟩, ⟨going.2.1, ht ▸ behindSecond⟩,
    ⟨going.2.2, hl ▸ behindThird⟩, ending, (isLeast_synchronize last).1 ending⟩

end Cursor
end Lox
