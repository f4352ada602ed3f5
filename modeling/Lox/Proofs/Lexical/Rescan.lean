import Lox.Proofs.Lexical.Munch

/-!
Lexemes read again. The lexeme of a token is matched by its pattern whatever stands after it, and
space after it does not go on with it, so that lexemes with space between them are read as the
tokens that they come from, in any order and from any texts.
-/

namespace Lox

/-- A token but for its line. -/
def Token.content (t : Token) : Kind × String × Option Value := (t.kind, t.lexeme, t.literal)

namespace Lexical

namespace Pattern

section token

variable {p : Pattern} {text after : List Char} {kind : Kind} (gives : p.kind? text = some kind)
  (fits : p.Matches text after)

include gives fits

/-- What makes a token is matched whatever stands after it. -/
theorem matches_of_kind? (other : List Char) : p.Matches text other := by
  cases p with
  | mark | number | string | word => exact fits
  | lineComment | blockComment | openString => cases gives

/-- Space after a token does not go on with it. -/
theorem ends_of_space {other : List Char} (space : ∀ c ∈ other.head?, isSpace c = true) :
    p.Ends text other := by
  have plain {c : Char} (hc : c ∈ other.head?) : opening? c = none :=
    opening?_of_isSpace (space c hc)
  have digit {c : Char} (hc : c ∈ other.head?) : c.isDigit = false := by
    rw [Bool.eq_false_iff]
    intro h
    cases (plain hc).symm.trans (opening?_of_isDigit h)
  cases p with
  | mark k =>
      intro c hc
      have inside : ∀ m ∈ marks, m.1.all (!isSpace ·) := by decide
      refine ⟨fun mem => ?_, fun same => ?_, fun same => ?_⟩
      · obtain ⟨m, mem, same⟩ := List.mem_map.1 mem
        have plain := List.all_eq_true.1 (inside m mem) c (by simp [same])
        simp [space c hc] at plain
      · obtain rfl : c = '/' := by simpa using congrArg List.getLast? same
        cases space _ hc
      · obtain rfl : c = '*' := by simpa using congrArg List.getLast? same
        cases space _ hc
  | number =>
      refine ⟨fun c hc => digit hc, .inr ?_⟩
      rintro d more rfl
      cases space '.' rfl
  | word =>
      intro c hc
      rw [Bool.eq_false_iff]
      intro part
      obtain start | h := isWordPart_iff.1 part
      · cases (plain hc).symm.trans (opening?_of_isWordStart start)
      · cases (digit hc).symm.trans h
  | string | lineComment | blockComment | openString => trivial

end token

end Pattern

def Occurs (t : Token) : Prop := t.kind ≠ .eof ∧ ∃ source, t ∈ (read source).tokens

theorem Occurs.exists_pattern {t : Token} (h : Occurs t) :
    ∃ (p : Pattern) (text after : List Char) (kind : Kind) (line : Nat), p.Matches text after ∧
      p.kind? text = some kind ∧ t = tokenOf kind text line := by
  obtain ⟨regular, source, mem⟩ := h
  obtain ⟨line, rfl⟩ | ⟨p, text, after, line, longest, made⟩ :=
    (munches_read source).exists_piece t mem
  · exact absurd rfl regular
  · obtain ⟨kind, gives, same⟩ := Pattern.exists_kind_of_token? made
    exact ⟨p, text, after, kind, line, longest.fits, gives, same⟩

/-- Lexemes with space between them are read by maximal munch as what they come from. -/
theorem munches_joined (parts : List (Token × String)) (occur : ∀ part ∈ parts, Occurs part.1)
    (space : ∀ part ∈ parts, ∀ c ∈ part.2.toList, isSpace c = true)
    (apart : ∀ part ∈ parts.dropLast, part.2 ≠ "") (line : Nat) :
    ∃ tokens last, Munches line
        (parts.flatMap fun part => part.1.lexeme.toList ++ part.2.toList)
        (tokens ++ [eofAt last]) [] ∧
      tokens.map Token.content = parts.map fun part => part.1.content := by
  induction parts generalizing line with
  | nil => exact ⟨[], line, .done line, rfl⟩
  | cons part rest ih =>
      obtain ⟨t, gap⟩ := part
      obtain ⟨occurs, others⟩ := List.forall_mem_cons.1 occur
      obtain ⟨blank, blanks⟩ := List.forall_mem_cons.1 space
      obtain ⟨p, text, after, kind, line', fits, gives, rfl⟩ := occurs.exists_pattern
      have next : ∀ c ∈ (gap.toList ++ rest.flatMap fun part =>
          part.1.lexeme.toList ++ part.2.toList).head?, isSpace c = true := by
        intro c hc
        cases hg : gap.toList with
        | cons d more =>
            obtain rfl : d = c := by simpa [hg] using hc
            exact blank d (by simp [hg])
        | nil =>
            cases rest with
            | nil => simp [hg] at hc
            | cons second rest =>
                have wide : gap ≠ "" := apart _ List.mem_cons_self
                exact absurd (String.toList_eq_nil_iff.1 hg) wide
      have wide : ∀ part ∈ rest.dropLast, part.2 ≠ "" := by
        intro part mem
        cases rest with
        | nil => simp at mem
        | cons second rest => exact apart part (List.mem_cons_of_mem _ mem)
      obtain ⟨tokens, last, munches, same⟩ :=
        ih others blanks wide (line + text.count '\n' + gap.toList.count '\n')
      have longest := Pattern.longest_of_ends (Pattern.matches_of_kind? gives fits _)
        (Pattern.ends_of_space gives fits next)
      refine ⟨tokenOf kind text (line + text.count '\n') :: tokens, last, ?_, ?_⟩
      · have piece := Munches.piece rfl longest (.spaces blank munches)
        rw [Pattern.token?_of_kind gives, Pattern.error?_of_kind gives] at piece
        rw [List.flatMap_cons, List.append_assoc]
        simpa [tokenOf] using piece
      · rw [List.map_cons, List.map_cons, same]
        rfl

/-- Lexemes of tokens from any texts, joined with space between them, are read without an error as
those tokens, but for the lines, and an end mark. -/
theorem read_joined (parts : List (Token × String)) (occur : ∀ part ∈ parts, Occurs part.1)
    (space : ∀ part ∈ parts, ∀ c ∈ part.2.toList, isSpace c = true)
    (apart : ∀ part ∈ parts.dropLast, part.2 ≠ "") :
    ∃ tokens last, read (String.join (parts.map fun part => part.1.lexeme ++ part.2)) =
        ⟨tokens ++ [eofAt last], []⟩ ∧
      tokens.map Token.content = parts.map fun part => part.1.content := by
  obtain ⟨tokens, last, munches, same⟩ := munches_joined parts occur space apart 1
  refine ⟨tokens, last, ?_, same⟩
  have text : (String.join (parts.map fun part => part.1.lexeme ++ part.2)).toList =
      parts.flatMap fun part => part.1.lexeme.toList ++ part.2.toList := by
    simp [String.toList_join, List.flatMap_map]
  obtain ⟨here, clean⟩ := (munches_read _).unique (text ▸ munches)
  rw [← here, ← clean]

theorem read_joined_strings :
    let slash : Token := ⟨.slash, "/", none, 1⟩
    let quoted : Token := ⟨.string, "\"//\n\"", some (.string "//\n"), 2⟩
    let parts := [(slash, " "), (quoted, "\r\n"), (slash, "\t"), (slash, "")]
    (∀ part ∈ parts, Occurs part.1) ∧
      (∀ part ∈ parts, ∀ c ∈ part.2.toList, isSpace c = true) ∧
      (∀ part ∈ parts.dropLast, part.2 ≠ "") ∧
      ∃ tokens last, read "/ \"//\n\"\r\n/\t/" = ⟨tokens ++ [eofAt last], []⟩ ∧
        tokens.map Token.content = [slash.content, quoted.content, slash.content, slash.content] := by
  intro slash quoted parts
  have slash_occurs : Occurs slash := ⟨by decide, "a/b", by decide +kernel⟩
  have quoted_occurs : Occurs quoted := ⟨by decide, "a=\"//\n\";", by decide +kernel⟩
  have occur : ∀ part ∈ parts, Occurs part.1 := by
    simp only [parts, List.forall_mem_cons]
    exact ⟨slash_occurs, quoted_occurs, slash_occurs, slash_occurs, nofun⟩
  have blank : ∀ part ∈ parts, part.2.toList.all isSpace := by decide
  have space : ∀ part ∈ parts, ∀ c ∈ part.2.toList, isSpace c = true :=
    fun part mem => List.all_eq_true.1 (blank part mem)
  have apart : ∀ part ∈ parts.dropLast, part.2 ≠ "" := by decide
  exact ⟨occur, space, apart, read_joined parts occur space apart⟩

end Lexical
end Lox
