import Lox.Lexical.Segment

/-!
The segments of a text cover it: none is empty, and joined they are the text.
-/

namespace Lox
namespace Lexical

theorem afterClose_suffix (text : List Char) : afterClose text <:+ text := by
  fun_induction afterClose text with
  | case1 rest => exact (List.suffix_cons '/' rest).trans (List.suffix_cons '*' ('/' :: rest))
  | case2 c rest _ ih => exact ih.trans (List.suffix_cons c rest)
  | case3 => exact List.suffix_rfl

theorem take_afterClose (text : List Char) :
    text.take (text.length - (afterClose text).length) ++ afterClose text = text := by
  obtain ⟨front, h⟩ := afterClose_suffix text
  have hl : text.length = front.length + (afterClose text).length := by
    rw [← List.length_append, h]
  have ht : text.take front.length = front := by
    conv => lhs; rw [← h]
    simp
  rw [hl, Nat.add_sub_cancel, ht, h]

theorem stringSegment_text (rest : List Char) :
    (stringSegment rest).1.text ++ (stringSegment rest).2 = '"' :: rest := by
  have h := List.takeWhile_append_dropWhile (p := (· != '"')) (l := rest)
  simp only [stringSegment]
  split <;> rename_i hd <;> rw [hd] at h <;> simpa [Segment.text] using h

theorem numberSegment_text (c : Char) (rest : List Char) :
    (numberSegment c rest).1.text ++ (numberSegment c rest).2 = c :: rest := by
  have h := List.takeWhile_append_dropWhile (p := Char.isDigit) (l := rest)
  simp only [numberSegment]
  split
  · rename_i d after hd
    rw [hd] at h
    split
    · simpa [Segment.text] using h
    · simpa [Segment.text] using h
  · simp [Segment.text]

theorem wordSegment_text (c : Char) (rest : List Char) :
    (wordSegment c rest).1.text ++ (wordSegment c rest).2 = c :: rest := by
  simp [wordSegment, Segment.text]

theorem markSegment_text (c : Char) (rest : List Char) :
    (markSegment c rest).1.text ++ (markSegment c rest).2 = c :: rest := by
  simp only [markSegment]
  split
  · simp [Segment.text]
  · split <;> simp [Segment.text]

theorem slashSegment_text (rest : List Char) :
    (slashSegment rest).1.text ++ (slashSegment rest).2 = '/' :: rest := by
  simp only [slashSegment]
  split
  · simp [Segment.text]
  · rename_i after
    simpa [Segment.text] using take_afterClose after
  · simp [Segment.text]

/-- A segment and what follows it are the text that was looked at. -/
theorem first_text (c : Char) (rest : List Char) :
    (first c rest).1.text ++ (first c rest).2 = c :: rest := by
  simp only [first]
  split
  · simp [Segment.text]
  · split
    · rename_i h
      simp [Segment.text, eq_of_beq h]
    · split
      · rename_i h
        rw [stringSegment_text, eq_of_beq h]
      · split
        · rename_i h
          rw [slashSegment_text, eq_of_beq h]
        · split
          · exact numberSegment_text c rest
          · split
            · exact wordSegment_text c rest
            · exact markSegment_text c rest

theorem first_text_ne_nil (c : Char) (rest : List Char) : (first c rest).1.text ≠ [] := by
  simp only [first, stringSegment, slashSegment, numberSegment, wordSegment, markSegment]
  repeat' split
  all_goals simp [Segment.text]

theorem length_first_lt (c : Char) (rest : List Char) :
    (first c rest).2.length < (c :: rest).length := by
  have h := congrArg List.length (first_text c rest)
  have := List.length_pos_iff.2 (first_text_ne_nil c rest)
  rw [List.length_append] at h
  omega

theorem segmentsWithin_found (n : Nat) (found : List Segment) (text : List Char) :
    segmentsWithin n found text = found.reverse ++ segmentsWithin n [] text := by
  induction n generalizing found text with
  | zero => simp [segmentsWithin]
  | succ n ih =>
      cases text with
      | nil => simp [segmentsWithin]
      | cons c rest =>
          simp only [segmentsWithin]
          rw [ih (_ :: found), ih [_]]
          simp

theorem segmentsWithin_bound {n m : Nat} {found : List Segment} {text : List Char}
    (hn : text.length ≤ n) (hm : text.length ≤ m) :
    segmentsWithin n found text = segmentsWithin m found text := by
  induction n generalizing m found text with
  | zero =>
      obtain rfl : text = [] := List.eq_nil_of_length_eq_zero (by omega)
      cases m <;> rfl
  | succ n ih =>
      cases text with
      | nil => cases m <;> rfl
      | cons c rest =>
          obtain ⟨m, rfl⟩ : ∃ k, m = k + 1 := ⟨m - 1, by simp only [List.length_cons] at hm; omega⟩
          have := length_first_lt c rest
          simp only [List.length_cons] at this hn hm
          show segmentsWithin n _ (first c rest).2 = segmentsWithin m _ (first c rest).2
          exact ih (by omega) (by omega)

theorem segments_nil : segments [] = [] := rfl

/-- The first segment, and then the segments of what follows it. -/
theorem segments_cons (c : Char) (rest : List Char) :
    segments (c :: rest) = (first c rest).1 :: segments (first c rest).2 := by
  have := length_first_lt c rest
  simp only [segments, List.length_cons, segmentsWithin]
  rw [segmentsWithin_found, segmentsWithin_bound (by simp at this; omega) (Nat.le_refl _)]
  simp

/-- What follows a segment is shorter than what was looked at, so that a fact about all texts can be
shown from the first segment on. -/
theorem segments_induction {motive : List Char → Prop} (nil : motive [])
    (cons : ∀ c rest, motive (first c rest).2 → motive (c :: rest)) (text : List Char) :
    motive text := by
  induction h : text.length using Nat.strongRecOn generalizing text with
  | _ n ih =>
      cases text with
      | nil => exact nil
      | cons c rest => exact cons c rest (ih _ (h ▸ length_first_lt c rest) _ rfl)

/-- Joined, the segments are the text. -/
theorem flatMap_text_segments (text : List Char) : (segments text).flatMap Segment.text = text := by
  induction text using segments_induction with
  | nil => rfl
  | cons c rest ih => rw [segments_cons, List.flatMap_cons, ih, first_text]

end Lexical
end Lox
