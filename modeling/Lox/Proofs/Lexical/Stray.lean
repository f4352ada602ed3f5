import Mathlib.Data.List.Forall2
import Lox.Proofs.Lexical.Account
import Lox.Proofs.Lexical.Rescan

/-!
Characters out of place. A character at which no pattern matches stands for nothing but its error:
with a space in the place of each of them a text is read as the same tokens on the same lines, and
only a string that is open at the end is still an error.
-/

namespace Lox

def Segment.mended : Segment → List Char
  | stray _ => [' ']
  | s => s.text

namespace Lexical

/-- A text with a space in the place of each character out of place. -/
def mended (text : List Char) : List Char := (segments text).flatMap Segment.mended

/-- The same characters, but for spaces in the place of some at which no pattern matches. -/
def Mends : List Char → List Char → Prop :=
  List.Forall₂ fun c d => d = c ∨ isSpace c = false ∧ opening? c = none ∧ d = ' '

theorem Mends.refl (text : List Char) : Mends text text :=
  List.forall₂_same.2 fun _ _ => .inl rfl

theorem mended_cons (c : Char) (rest : List Char) :
    mended (c :: rest) = (first c rest).1.mended ++ mended (first c rest).2 := by
  rw [mended, segments_cons, List.flatMap_cons, mended]

theorem mends_segment {s : Segment} {after : List Char} (h : s.Begins after) :
    Mends s.text s.mended := by
  cases s with
  | stray c => exact .cons (.inr ⟨h.1, h.2, rfl⟩) .nil
  | token | blanks | newline | comment | openString => exact .refl _

theorem mends_mended (text : List Char) : Mends text (mended text) := by
  induction text using segments_induction with
  | nil => exact .nil
  | cons c rest ih =>
      have whole : Mends ((first c rest).1.text ++ (first c rest).2) (mended (c :: rest)) := by
        rw [mended_cons]
        exact List.rel_append (mends_segment (first_begins rest c)) ih
      rwa [first_text] at whole

namespace Pattern

variable {p : Pattern} {text after after' : List Char}

theorem Longest.not_matches (h : p.Longest text after) (q : Pattern) {c : Char}
    (back rest : List Char) (split : after = c :: back ++ rest) :
    ¬q.Matches (text ++ c :: back) rest := by
  intro longer
  have short := h.longest q _ rest (by rw [split, List.append_assoc]) longer
  rw [List.length_append, List.length_cons] at short
  omega

/-- What follows the longest match does not go on with it. -/
theorem Longest.ends (h : p.Longest text after) : p.Ends text after := by
  cases p with
  | mark kind =>
      intro c hc
      obtain ⟨more, rfl⟩ := List.head?_eq_some_iff.1 hc
      refine ⟨fun known => ?_, fun line => ?_, fun block => ?_⟩
      · obtain ⟨⟨other, k⟩, mem, rfl⟩ := List.mem_map.1 known
        exact h.not_matches (mark k) [] more rfl mem
      · have same : text ++ [c] = ['/'] ++ ['/'] := line
        obtain ⟨rfl, ⟨⟩⟩ := List.append_inj' same rfl
        have split : more = more.takeWhile (· != '\n') ++ more.dropWhile (· != '\n') := by simp
        refine h.not_matches lineComment _ _ (congrArg ('/' :: ·) split) ⟨_, ?_, rfl, ?_⟩
        · intro mem
          simpa using List.mem_takeWhile_imp mem
        · intro e he
          simpa using head?_dropWhile_eq_false (p := (· != '\n')) e he
      · have same : text ++ [c] = ['/'] ++ ['*'] := block
        obtain ⟨rfl, ⟨⟩⟩ := List.append_inj' same rfl
        obtain ⟨body, unclosed, split⟩ | ⟨unclosed, -⟩ := afterClose_cut more
        · exact h.not_matches blockComment (body ++ ['*', '/']) _
            (congrArg ('*' :: ·) split) (.inl ⟨body, unclosed, rfl⟩)
        · exact h.not_matches blockComment more [] (by simp)
            (.inr ⟨more, unclosed, rfl, rfl⟩)
  | number =>
      constructor
      · intro c hc
        obtain ⟨more, rfl⟩ := List.head?_eq_some_iff.1 hc
        rw [Bool.eq_false_iff]
        intro digit
        have longer {digits : List Char} (all : Digits digits) : Digits (digits ++ [c]) :=
          ⟨by simp, List.forall_mem_append.2 ⟨all.2, List.forall_mem_singleton.2 digit⟩⟩
        refine h.not_matches number [] more rfl ?_
        obtain digits | ⟨whole, fraction, digits, digits', rfl⟩ := h.fits
        · exact .inl (longer digits)
        · exact .inr ⟨whole, fraction ++ [c], digits, longer digits', by simp⟩
      · obtain digits | ⟨whole, fraction, -, -, rfl⟩ := h.fits
        · refine .inr fun d more he => ?_
          rw [Bool.eq_false_iff]
          intro digit
          refine h.not_matches number [d] more he
            (.inr ⟨text, [d], digits, ⟨by simp, by simpa using digit⟩, rfl⟩)
        · exact .inl (by simp)
  | word =>
      intro c hc
      obtain ⟨more, rfl⟩ := List.head?_eq_some_iff.1 hc
      rw [Bool.eq_false_iff]
      intro part
      obtain ⟨first, letters, start, parts, rfl⟩ := h.fits
      refine h.not_matches word [] more rfl ⟨first, letters ++ [c], start, ?_, rfl⟩
      exact List.forall_mem_append.2 ⟨parts, List.forall_mem_singleton.2 part⟩
  | string | lineComment | blockComment | openString => trivial

theorem Matches.mends (h : p.Matches text after) (m : Mends after after') :
    p.Matches text after' := by
  cases p with
  | mark | number | string | word => exact h
  | lineComment =>
      obtain ⟨body, line, he, stop⟩ := h
      refine ⟨body, line, he, fun c hc => ?_⟩
      cases m with
      | nil => cases hc
      | cons here _ =>
          -- The newline after the comment is in its place.
          obtain rfl := stop _ rfl
          obtain rfl | ⟨other, -, -⟩ := here
          · exact stop c hc
          · cases other
  | blockComment =>
      obtain closed | ⟨body, unclosed, he, rfl⟩ := h
      · exact .inl closed
      · exact .inr ⟨body, unclosed, he, List.forall₂_nil_left_iff.1 m⟩
  | openString =>
      obtain ⟨body, unclosed, he, rfl⟩ := h
      exact ⟨body, unclosed, he, List.forall₂_nil_left_iff.1 m⟩

theorem Ends.mends (h : p.Ends text after) (fits : p.Matches text after)
    (m : Mends after after') : p.Ends text after' := by
  cases m with
  | nil => exact h
  | cons here more =>
      obtain rfl | ⟨-, -, rfl⟩ := here
      · cases p with
        | mark | word => exact h
        | number =>
            refine ⟨h.1, h.2.imp_right fun next d rest he => ?_⟩
            obtain ⟨rfl, rfl⟩ := List.cons.inj he
            cases more with
            | cons second _ =>
                obtain rfl | ⟨-, -, rfl⟩ := second
                · exact next _ _ rfl
                · rfl
        | string | lineComment | blockComment | openString => trivial
      · cases gives : p.kind? text with
        | some kind => exact ends_of_space gives fits (by rintro c ⟨⟩; rfl)
        | none =>
            cases p with
            | mark | number | string | word => cases gives
            | lineComment | blockComment | openString => trivial

/-- The longest match is still the longest when characters out of place after it become spaces. -/
theorem Longest.mends (h : p.Longest text after) (m : Mends after after') :
    p.Longest text after' :=
  longest_of_ends (h.fits.mends m) (h.ends.mends h.fits m)

end Pattern

theorem filter_scan_error (line : Nat) (parts : List Segment) :
    ((scan Segment.error? line parts).filter (·.problem = .unterminatedString) =
        scan Segment.open? line parts) ∧
      (scan Segment.error? line parts).filter (·.problem ≠ .unterminatedString) =
        scan Segment.stray? line parts := by
  induction parts generalizing line with
  | nil => exact ⟨rfl, rfl⟩
  | cons s rest ih =>
      obtain ⟨opens, strays⟩ := ih (line + s.text.count '\n')
      simp only [scan, List.filter_append, opens, strays]
      cases s <;> exact ⟨rfl, rfl⟩

/-- Only the last segment of a text can be an open string. -/
theorem length_scan_open_le (line : Nat) (text : List Char) :
    (scan Segment.open? line (segments text)).length ≤ 1 := by
  induction text using segments_induction generalizing line with
  | nil => exact Nat.zero_le 1
  | cons c rest ih =>
      have begins := first_begins rest c
      have more := ih (line + (first c rest).1.text.count '\n')
      rw [segments_cons, scan]
      generalize (first c rest).1 = s at begins more
      cases s with
      | openString body =>
          obtain ⟨⟨-, -, -, nothing⟩, -⟩ := begins
          rw [nothing, segments_nil]
          exact Nat.le_refl 1
      | token | blanks | newline | comment | stray => exact more

/-- With its characters out of place mended a text is read as the same tokens, and with no error but
an open string. -/
theorem munches_mended (line : Nat) (text : List Char) :
    Munches line (mended text)
      (scan Segment.token? line (segments text) ++ [eofAt (line + text.count '\n')])
      (scan Segment.open? line (segments text)) := by
  -- The segments of the mended text are not known, but where those of the text itself end, the
  -- longest match ends there, too.
  induction text using segments_induction generalizing line with
  | nil => exact .done line
  | cons c rest ih =>
      have begins := first_begins rest c
      have split := first_text c rest
      have mends := mends_mended (first c rest).2
      have more := ih (line + (first c rest).1.text.count '\n')
      have lines : line + (c :: rest).count '\n' =
          line + (first c rest).1.text.count '\n' + (first c rest).2.count '\n' := by
        rw [Nat.add_assoc, ← List.count_append, split]
      rw [mended_cons, segments_cons, scan, scan, lines, List.append_assoc]
      generalize (first c rest).1 = s at begins split more
      generalize (first c rest).2 = after at begins split more mends
      cases s with
      | token kind text =>
          obtain ⟨p, longest, gives⟩ := begins
          have piece := Munches.piece rfl (longest.mends mends) more
          rw [Pattern.token?_of_kind gives, Pattern.error?_of_kind gives] at piece
          rw [Segment.token?_token]
          exact piece
      | blanks text =>
          refine .spaces (fun d hd => ?_) more
          simp [isSpace, begins.2 d hd]
      | newline => exact .space rfl more
      | comment text =>
          obtain ⟨p, rfl | rfl, longest⟩ := begins <;> exact .piece rfl (longest.mends mends) more
      | stray d =>
          have newline : d ≠ '\n' := by
            rintro rfl
            cases begins.1
          have same : (Segment.stray d).text.count '\n' = [' '].count '\n' := by
            simp [Segment.text, newline]
          rw [same] at more ⊢
          exact .space rfl more
      | openString text => exact .piece rfl (begins.mends mends) more

/-- With a space in the place of each character that is an error, a text is read as the same tokens
on the same lines, and of the errors only the one about an open string is left, if there is one. -/
theorem read_mended (text : String) :
    let reading := read text
    let reading' := read (String.ofList (mended text.toList))
    reading'.tokens = reading.tokens ∧
      reading'.errors = reading.errors.filter (·.problem = .unterminatedString) ∧
      reading'.errors.length ≤ 1 ∧
      scan Segment.stray? 1 (segments text.toList) =
        reading.errors.filter (·.problem ≠ .unterminatedString) := by
  intro reading reading'
  have whole := munches_read (String.ofList (mended text.toList))
  rw [String.toList_ofList] at whole
  obtain ⟨tokens, errors⟩ := whole.unique (munches_mended 1 text.toList)
  obtain ⟨opens, strays⟩ := filter_scan_error 1 (segments text.toList)
  have here : reading.errors = scan Segment.error? 1 (segments text.toList) :=
    congrArg Reading.errors (read_eq text)
  refine ⟨?_, ?_, ?_, ?_⟩
  · exact tokens.trans (congrArg Reading.tokens (read_eq text)).symm
  · rw [here, opens]
    exact errors
  · exact (congrArg List.length errors).trans_le (length_scan_open_le 1 text.toList)
  · rw [here, strays]

example : mended "a@1.#2 !€= \"é\" \"@".toList = "a 1. 2 ! = \"é\" \"@".toList := by
  decide +kernel

end Lexical
end Lox
