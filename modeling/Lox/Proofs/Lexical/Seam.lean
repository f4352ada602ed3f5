import Lox.Proofs.Lexical.Scan

/-!
Texts that are joined by a newline. Only a string or a block comment that is still open where the
first text ends can reach across it; otherwise the segments are those of the first text, the
newline, and those of the second one.
-/

namespace Lox

/-- Whether a segment has come to its end: strings end with a quote, block comments with `*/`. -/
def Segment.Closed : Segment → Prop
  | openString _ => False
  | comment ('/' :: '*' :: body) => ['*', '/'] <:+: body
  | _ => True

theorem Segment.closed_comment_iff {text : List Char} :
    (comment text).Closed ↔ ∀ body, text = '/' :: '*' :: body → ['*', '/'] <:+: body := by
  constructor
  · rintro h body rfl
    exact h
  · intro h
    unfold Closed
    split
    · trivial
    · rename_i body he
      exact h body (Segment.comment.inj he)
    · trivial

namespace Lexical

section spans

variable {p : Char → Bool} {c : Char} (hc : p c = false) (text back : List Char)

include hc

theorem takeWhile_append_cons : (text ++ c :: back).takeWhile p = text.takeWhile p := by
  induction text with
  | nil => simp [hc]
  | cons d rest ih => simp [List.takeWhile_cons, ih]

theorem dropWhile_append_cons :
    (text ++ c :: back).dropWhile p = text.dropWhile p ++ c :: back := by
  induction text with
  | nil => simp [hc]
  | cons d rest ih =>
      rw [List.cons_append, List.dropWhile_cons, List.dropWhile_cons, ih]
      split <;> rfl

end spans

theorem afterClose_cons_of_ne {c : Char} {rest : List Char}
    (h : ∀ more, c :: rest ≠ '*' :: '/' :: more) :
    afterClose (c :: rest) = afterClose rest := by
  rw [afterClose.eq_def]
  split
  · rename_i more he
    exact absurd he (h more)
  · rename_i he
    obtain ⟨-, rfl⟩ := List.cons.inj he
    rfl
  · rename_i he
    cases he

/-- What follows a closed comment is followed by whatever comes after. -/
theorem afterClose_append {text : List Char} (h : ['*', '/'] <:+: text) (back : List Char) :
    afterClose (text ++ back) = afterClose text ++ back := by
  fun_induction afterClose text with
  | case1 rest => rfl
  | case2 c rest other ih =>
      have inside : ['*', '/'] <:+: rest := by
        obtain hp | hi := List.infix_cons_iff.1 h
        · obtain ⟨more, he⟩ := hp
          obtain ⟨rfl, rfl⟩ := List.cons.inj he
          exact absurd rfl (other more rfl)
        · exact hi
      rw [List.cons_append, afterClose_cons_of_ne, ih inside]
      intro more he
      obtain ⟨rfl, hr⟩ := List.cons.inj he
      cases rest with
      | nil => simp at inside
      | cons d rest =>
          obtain ⟨rfl, rfl⟩ := List.cons.inj hr
          exact other rest rfl rfl
  | case3 => simp at h

/-- A comment with text after it has been closed. -/
theorem infix_take_afterClose {text : List Char} (h : afterClose text ≠ []) :
    ['*', '/'] <:+: text.take (text.length - (afterClose text).length) := by
  fun_induction afterClose text with
  | case1 rest =>
      have two : ('*' :: '/' :: rest).length - rest.length = 2 := by simp; omega
      rw [two]
      exact List.infix_rfl
  | case2 c rest other ih =>
      have shorter : (afterClose rest).length ≤ rest.length := (afterClose_suffix rest).length_le
      have one : (c :: rest).length - (afterClose rest).length =
          rest.length - (afterClose rest).length + 1 := by simp; omega
      rw [one, List.take_succ_cons]
      exact List.infix_cons (ih h)
  | case3 => exact absurd rfl h

section first

variable {c : Char} {rest : List Char} (back : List Char)

theorem stringSegment_append (h : (stringSegment rest).1.Closed) :
    stringSegment (rest ++ back) = ((stringSegment rest).1, (stringSegment rest).2 ++ back) := by
  have joined : (rest ++ back).takeWhile (· != '"') ++ (rest ++ back).dropWhile (· != '"') =
      rest.takeWhile (· != '"') ++ rest.dropWhile (· != '"') ++ back := by simp
  simp only [stringSegment] at h ⊢
  cases hd : rest.dropWhile (· != '"') with
  | nil => exact absurd h (by simp [hd, Segment.Closed])
  | cons quote after =>
      have dropped : (rest ++ back).dropWhile (· != '"') = quote :: after ++ back := by
        rw [List.dropWhile_append, hd]
        rfl
      rw [dropped, hd, List.append_assoc, List.append_left_inj] at joined
      rw [dropped, joined]
      rfl

theorem slashSegment_append (h : (slashSegment rest).1.Closed) :
    slashSegment (rest ++ '\n' :: back) =
      ((slashSegment rest).1, (slashSegment rest).2 ++ '\n' :: back) := by
  have taken := takeWhile_append_cons (p := (· != '\n')) (c := '\n') rfl
  have dropped := dropWhile_append_cons (p := (· != '\n')) (c := '\n') rfl
  simp only [slashSegment] at h ⊢
  split at h
  · simp only [List.cons_append, taken, dropped]
  · rename_i after
    have closed : ['*', '/'] <:+: after := h.trans (List.take_prefix _ _).isInfix
    have suffix := (afterClose_suffix after).length_le
    simp only [List.cons_append, afterClose_append closed, List.length_append]
    rw [Nat.add_sub_add_right, List.take_append_of_le_length (Nat.sub_le _ _)]
  · rename_i notLine notBlock
    cases rest with
    | nil => rfl
    | cons d rest =>
        split
        · rename_i he
          exact absurd (congrArg (· :: rest) (List.cons.inj he).1) (notLine rest)
        · rename_i he
          exact absurd (congrArg (· :: rest) (List.cons.inj he).1) (notBlock rest)
        · rfl

theorem numberSegment_append :
    numberSegment c (rest ++ '\n' :: back) =
      ((numberSegment c rest).1, (numberSegment c rest).2 ++ '\n' :: back) := by
  have newline : Char.isDigit '\n' = false := rfl
  simp only [numberSegment, takeWhile_append_cons newline, dropWhile_append_cons newline]
  cases rest.dropWhile Char.isDigit with
  | nil => rfl
  | cons e left =>
      by_cases he : e = '.'
      · subst he
        cases left with
        | nil => rfl
        | cons d after =>
            simp only [List.cons_append, takeWhile_append_cons newline,
              dropWhile_append_cons newline]
            split <;> rfl
      · split
        · rename_i hc
          exact absurd (List.cons.inj hc).1 he
        · split
          · rename_i hc
            exact absurd (List.cons.inj hc).1 he
          · rfl

theorem wordSegment_append :
    wordSegment c (rest ++ '\n' :: back) =
      ((wordSegment c rest).1, (wordSegment c rest).2 ++ '\n' :: back) := by
  have newline : isWordPart '\n' = false := rfl
  simp only [wordSegment, takeWhile_append_cons newline, dropWhile_append_cons newline]

theorem markSegment_append :
    markSegment c (rest ++ '\n' :: back) =
      ((markSegment c rest).1, (markSegment c rest).2 ++ '\n' :: back) := by
  -- Without an equals sign after it, the mark stands alone whatever comes next.
  have alone (text : List Char) (h : text.head? ≠ some '=') :
      markSegment c text = ((markSegment c []).1, text) := by
    simp only [markSegment]
    cases markWithEqual? c with
    | none => cases mark? c <;> rfl
    | some kind =>
        split
        · exact absurd rfl h
        · cases mark? c <;> rfl
  cases rest with
  | nil =>
      have nothing : (markSegment c []).2 = [] := congrArg Prod.snd (alone [] (by simp))
      rw [List.nil_append, alone ('\n' :: back) (by simp), nothing, List.nil_append]
  | cons d rest =>
      by_cases hd : d = '='
      · subst hd
        simp only [markSegment, List.cons_append]
        cases markWithEqual? c with
        | some kind => rfl
        | none => cases mark? c <;> rfl
      · rw [alone (d :: rest) (by simpa using hd),
          alone (d :: rest ++ '\n' :: back) (by simpa using hd)]

/-- A segment that has come to its end is the same with a newline and more after the text. -/
theorem first_append (h : (first c rest).1.Closed) :
    first c (rest ++ '\n' :: back) = ((first c rest).1, (first c rest).2 ++ '\n' :: back) := by
  have blank : isBlank '\n' = false := rfl
  simp only [first] at h ⊢
  split
  · simp only [takeWhile_append_cons blank, dropWhile_append_cons blank]
  · split
    · rfl
    · split
      · rename_i hb hn hs
        simp only [hb, hn, hs, if_true, Bool.false_eq_true, if_false] at h
        exact stringSegment_append _ h
      · split
        · rename_i hb hn hs hl
          simp only [hb, hn, hs, hl, if_true, Bool.false_eq_true, if_false] at h
          exact slashSegment_append _ h
        · split
          · exact numberSegment_append back
          · split
            · exact wordSegment_append back
            · exact markSegment_append back

theorem stringSegment_closed (h : (stringSegment rest).2 ≠ []) :
    (stringSegment rest).1.Closed := by
  simp only [stringSegment] at h ⊢
  split at h
  · exact absurd rfl h
  · trivial

theorem slashSegment_closed (h : (slashSegment rest).2 ≠ []) : (slashSegment rest).1.Closed := by
  simp only [slashSegment] at h ⊢
  split at h
  · trivial
  · exact infix_take_afterClose h
  · trivial

/-- Only what reaches to the end of a text can be open there. -/
theorem first_closed (h : (first c rest).2 ≠ []) : (first c rest).1.Closed := by
  simp only [first] at h ⊢
  split
  · trivial
  · split
    · trivial
    · split
      · rename_i hb hn hs
        simp only [hb, hn, hs, if_true, Bool.false_eq_true, if_false] at h
        exact stringSegment_closed h
      · split
        · rename_i hb hn hs hl
          simp only [hb, hn, hs, hl, if_true, Bool.false_eq_true, if_false] at h
          exact slashSegment_closed h
        · split
          · simp only [numberSegment]
            repeat' split
            all_goals trivial
          · split
            · trivial
            · simp only [markSegment]
              repeat' split
              all_goals trivial

end first

/-- If the last segment of a text has come to its end, then all have. -/
theorem closed_of_last {text : List Char} (h : ∀ s ∈ (segments text).getLast?, s.Closed) :
    ∀ s ∈ segments text, s.Closed := by
  induction text using segments_induction with
  | nil => simp [segments_nil]
  | cons c rest ih =>
      rw [segments_cons] at h ⊢
      cases hr : (first c rest).2 with
      | nil => simpa [hr, segments_nil] using h
      | cons d more =>
          have closed : (first c rest).1.Closed := first_closed (by simp [hr])
          rw [hr] at ih h
          refine List.forall_mem_cons.2 ⟨closed, ih fun s hs => h s ?_⟩
          rw [segments_cons] at hs ⊢
          simpa using hs

/-- The segments of texts joined by a newline, when nothing is open at the end of the first. -/
theorem segments_append {front : List Char} (h : ∀ s ∈ segments front, s.Closed)
    (back : List Char) :
    segments (front ++ '\n' :: back) = segments front ++ .newline :: segments back := by
  induction front using segments_induction with
  | nil => rw [List.nil_append, segments_cons]; rfl
  | cons c rest ih =>
      rw [segments_cons, List.forall_mem_cons] at h
      rw [List.cons_append, segments_cons, first_append back h.1, ih h.2, segments_cons,
        List.cons_append]

/-- Texts joined by a newline are read one after the other, the second one as many lines further
down as the first one and the newline take up. -/
theorem read_append {text : String} (h : ∀ s ∈ segments text.toList, s.Closed) (back : String) :
    read (text ++ "\n" ++ back) =
      ⟨(read text).tokens.dropLast ++
          (read back).tokens.map (Token.relabel (.below (text.toList.count '\n' + 1))),
        (read text).errors ++
          (read back).errors.map (LexicalError.relabel (.below (text.toList.count '\n' + 1)))⟩ := by
  have whole : (text ++ "\n" ++ back).toList = text.toList ++ '\n' :: back.toList := by simp
  have further : 1 + text.toList.count '\n' + Segment.newline.text.count '\n' =
      1 + (text.toList.count '\n' + 1) := rfl
  have mark : eofAt (1 + (text.toList.count '\n' + (back.toList.count '\n' + 1))) =
      (eofAt (1 + back.toList.count '\n')).relabel (.below (text.toList.count '\n' + 1)) := by
    simp only [Relabeling.below, Token.relabel_ofLines, eofAt]
    congr 1
    omega
  rw [read_eq, read_eq, read_eq, whole, segments_append h, scan_append, scan_append, scan, scan,
    newlines_segments, further, scan_tokens_below, scan_errors_below]
  simp [Segment.token?, Segment.error?, mark]

end Lexical
end Lox
