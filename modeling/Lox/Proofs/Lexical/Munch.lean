import Lox.Proofs.Lexical.Pattern
import Mathlib.Data.List.TakeWhile

/-!
Reading a text by maximal munch: at every place where a token, a comment or an open string begins,
it is the longest match of a pattern there, and a character at which nothing matches is an error.
Each text is read in exactly one such way, and that is how it is read here.
-/

namespace Lox

def Segment.Begins (after : List Char) : Segment → Prop
  | token kind text => ∃ p : Lexical.Pattern, p.Longest text after ∧ p.kind? text = some kind
  | blanks text => text ≠ [] ∧ ∀ c ∈ text, Lexical.isBlank c = true
  | newline => True
  | comment text => ∃ p : Lexical.Pattern, (p = .lineComment ∨ p = .blockComment) ∧
      p.Longest text after
  | stray c => Lexical.isSpace c = false ∧ Lexical.opening? c = none
  | openString text => Lexical.Pattern.openString.Longest text after

namespace Lexical

open Pattern

theorem head?_dropWhile_eq_false {p : Char → Bool} {text : List Char} :
    ∀ c ∈ (text.dropWhile p).head?, p c = false := by
  intro c hc
  have h := List.head?_dropWhile_not p text
  rw [Option.mem_def.1 hc] at h
  exact h

section first

variable {c : Char} (rest : List Char)

theorem stringSegment_begins : (stringSegment rest).1.Begins (stringSegment rest).2 := by
  have open' : '"' ∉ rest.takeWhile (· != '"') := fun h => by simpa using List.mem_takeWhile_imp h
  simp only [stringSegment]
  split
  · exact longest_of_ends ⟨_, open', rfl, rfl⟩ trivial
  · rename_i quote after hd
    obtain rfl : quote = '"' := by
      simpa using head?_dropWhile_eq_false (p := (· != '"')) quote (by rw [hd]; rfl)
    exact ⟨string, longest_of_ends ⟨_, open', rfl⟩ trivial, rfl⟩

theorem digits_cons_takeWhile (hc : c.isDigit = true) :
    Digits (c :: rest.takeWhile Char.isDigit) :=
  ⟨List.cons_ne_nil _ _, List.forall_mem_cons.2 ⟨hc, fun _ => List.mem_takeWhile_imp⟩⟩

theorem numberSegment_begins (hc : c.isDigit = true) :
    (numberSegment c rest).1.Begins (numberSegment c rest).2 := by
  have whole := digits_cons_takeWhile rest hc
  have stop : ∀ d ∈ (rest.dropWhile Char.isDigit).head?, d.isDigit = false :=
    head?_dropWhile_eq_false
  simp only [numberSegment]
  split
  · rename_i d after hd
    rw [hd] at stop
    split
    · rename_i digit
      refine ⟨number, longest_of_ends
        (.inr ⟨_, _, whole, digits_cons_takeWhile after digit, rfl⟩) ⟨?_, .inl (by simp)⟩, rfl⟩
      exact head?_dropWhile_eq_false
    · rename_i other
      refine ⟨number, longest_of_ends (.inl whole) ⟨stop, .inr fun e more he => ?_⟩, rfl⟩
      obtain ⟨rfl, -⟩ := List.cons.inj (List.cons.inj he).2
      exact Bool.eq_false_iff.2 other
  · rename_i other
    exact ⟨number, longest_of_ends (.inl whole) ⟨stop, .inr fun e more he => (other e more he).elim⟩,
      rfl⟩

theorem wordSegment_begins (hc : isWordStart c = true) :
    (wordSegment c rest).1.Begins (wordSegment c rest).2 :=
  ⟨word, longest_of_ends ⟨c, _, hc, fun _ => List.mem_takeWhile_imp, rfl⟩ head?_dropWhile_eq_false,
    rfl⟩

theorem markSegment_begins (space : isSpace c = false) (quote : c ≠ '"') (slash : c ≠ '/')
    (digit : c.isDigit = false) (start : isWordStart c = false) :
    (markSegment c rest).1.Begins (markSegment c rest).2 := by
  simp only [markSegment]
  split
  · rename_i kind after hk
    refine ⟨mark kind, longest_of_ends (mem_marks_iff.2 (.inr ⟨c, rfl, hk⟩)) fun e _ => ?_, rfl⟩
    exact ⟨fun mem => by simpa using length_le_of_mem_marks mem, by simp, by simp⟩
  · rename_i alone
    split
    · rename_i kind hk
      refine ⟨mark kind, longest_of_ends (mem_marks_iff.2 (.inl ⟨c, rfl, hk⟩)) fun e he => ?_, rfl⟩
      refine ⟨fun mem => ?_, by simp [slash], by simp [slash]⟩
      obtain ⟨⟨text, k⟩, mem, same⟩ := List.mem_map.1 mem
      obtain ⟨d, rfl, -⟩ | ⟨d, rfl, hd⟩ := mem_marks_iff.1 mem
      · simp at same
      · obtain ⟨rfl, rfl⟩ : d = c ∧ '=' = e := by simpa using same
        obtain ⟨more, rfl⟩ := List.head?_eq_some_iff.1 he
        exact alone k more hd rfl
    · rename_i hk
      exact ⟨space, by simp [opening?, quote, digit, start, hk]⟩

/-- What follows the first `*/` of a text; without one nothing does. -/
theorem afterClose_cut (text : List Char) :
    (∃ body, ¬['*', '/'] <:+: body ++ ['*'] ∧ text = body ++ ['*', '/'] ++ afterClose text) ∨
      ¬['*', '/'] <:+: text ∧ afterClose text = [] := by
  fun_induction afterClose text with
  | case1 rest => exact .inl ⟨[], by decide, rfl⟩
  | case2 c rest other ih =>
      obtain ⟨body, unclosed, he⟩ | ⟨unclosed, he⟩ := ih
      · refine .inl ⟨c :: body, fun h => ?_, by rw [List.cons_append, List.cons_append, ← he]⟩
        obtain ⟨more, starts⟩ | inside := List.infix_cons_iff.1 h
        · cases body with
          | nil => cases starts
          | cons d body =>
              cases starts
              exact other _ rfl he
        · exact unclosed inside
      · refine .inr ⟨fun h => ?_, he⟩
        obtain ⟨more, starts⟩ | inside := List.infix_cons_iff.1 h
        · obtain ⟨rfl, rfl⟩ := List.cons.inj starts
          exact other _ rfl rfl
        · exact unclosed inside
  | case3 => exact .inr ⟨by simp, rfl⟩

theorem slashSegment_begins : (slashSegment rest).1.Begins (slashSegment rest).2 := by
  simp only [slashSegment]
  split
  · rename_i after
    refine ⟨lineComment, .inl rfl, longest_of_ends ⟨_, fun h => ?_, rfl, fun e he => ?_⟩ trivial⟩
    · simpa using List.mem_takeWhile_imp h
    · simpa using head?_dropWhile_eq_false (p := (· != '\n')) e he
  · rename_i after
    have whole := take_afterClose after
    refine ⟨blockComment, .inr rfl, longest_of_ends ?_ trivial⟩
    obtain ⟨body, unclosed, he⟩ | ⟨unclosed, he⟩ := afterClose_cut after
    · have taken := List.append_cancel_right (whole.trans he)
      exact .inl ⟨body, unclosed, by rw [taken]; rfl⟩
    · rw [he, List.append_nil] at whole
      exact .inr ⟨after, unclosed, by rw [he, whole], he⟩
  · rename_i line block
    refine ⟨mark .slash, longest_of_ends (by decide : (['/'], Kind.slash) ∈ marks) fun e he => ?_,
      rfl⟩
    obtain ⟨more, rfl⟩ := List.head?_eq_some_iff.1 he
    have others : ∀ m ∈ marks, m.1.tail = [] ∨ m.1.head? ≠ some '/' := by decide
    refine ⟨fun mem => ?_, ?_, ?_⟩
    · obtain ⟨m, mem, same⟩ := List.mem_map.1 mem
      have := others m mem
      simp [same] at this
    · rintro ⟨⟩
      exact line more rfl
    · rintro ⟨⟩
      exact block more rfl

/-- The first segment of a text is what the text begins with. -/
theorem first_begins (c : Char) : (first c rest).1.Begins (first c rest).2 := by
  simp only [first]
  split
  · rename_i blank
    exact ⟨List.cons_ne_nil _ _, List.forall_mem_cons.2 ⟨blank, fun _ => List.mem_takeWhile_imp⟩⟩
  · rename_i blank
    split
    · trivial
    · rename_i newline
      split
      · exact stringSegment_begins rest
      · rename_i quote
        split
        · exact slashSegment_begins rest
        · rename_i slash
          split
          · rename_i digit
            exact numberSegment_begins rest digit
          · rename_i digit
            split
            · rename_i start
              exact wordSegment_begins rest start
            · rename_i start
              exact markSegment_begins rest (by simp_all [isSpace]) (by simpa using quote)
                (by simpa using slash) (by simpa using digit) (by simpa using start)

end first

namespace Pattern

/-- The token that a match of a pattern is, if it is one, when it ends on some line. -/
def token? (text : List Char) (line : Nat) (p : Pattern) : Option Token :=
  (p.kind? text).map fun kind =>
    { kind := kind, lexeme := String.ofList text, literal := literal? kind text, line := line }

def error? (line : Nat) : Pattern → Option LexicalError
  | openString => some ⟨.unterminatedString, line⟩
  | _ => none

theorem token?_eq (p : Pattern) (text : List Char) (line : Nat) :
    p.token? text line = (p.kind? text).map (tokenOf · text line) :=
  Option.map_congr fun kind _ => (tokenOf_eq kind text line).symm

theorem token?_of_kind {p : Pattern} {text : List Char} {kind : Kind} {line : Nat}
    (h : p.kind? text = some kind) : p.token? text line = some (tokenOf kind text line) := by
  rw [token?_eq, h, Option.map_some]

theorem exists_kind_of_token? {p : Pattern} {text : List Char} {line : Nat} {t : Token}
    (h : p.token? text line = some t) :
    ∃ kind, p.kind? text = some kind ∧ t = tokenOf kind text line := by
  rw [token?_eq, Option.map_eq_some_iff] at h
  obtain ⟨kind, gives, rfl⟩ := h
  exact ⟨kind, gives, rfl⟩

theorem error?_of_kind {p : Pattern} {text : List Char} {kind : Kind} {line : Nat}
    (h : p.kind? text = some kind) : p.error? line = none := by
  cases p with
  | openString => cases h
  | _ => rfl

end Pattern

/-- A text whose first line has some number is read as tokens and errors by maximal munch. -/
inductive Munches : Nat → List Char → List Token → List LexicalError → Prop
  | done (line : Nat) :
      Munches line [] [{ kind := .eof, lexeme := "", literal := none, line := line }] []
  | space {line : Nat} {c : Char} {rest : List Char} {tokens : List Token}
      {errors : List LexicalError} (space : isSpace c = true)
      (more : Munches (line + [c].count '\n') rest tokens errors) :
      Munches line (c :: rest) tokens errors
  | piece {line : Nat} {source : List Char} {p : Pattern} {text after : List Char}
      {tokens : List Token} {errors : List LexicalError} (split : source = text ++ after)
      (longest : p.Longest text after)
      (more : Munches (line + text.count '\n') after tokens errors) :
      Munches line source ((p.token? text (line + text.count '\n')).toList ++ tokens)
        ((p.error? (line + text.count '\n')).toList ++ errors)
  | unexpected {line : Nat} {c : Char} {rest : List Char} {tokens : List Token}
      {errors : List LexicalError} (space : isSpace c = false)
      (nothing : ∀ (p : Pattern) (text after : List Char), c :: rest = text ++ after →
        ¬p.Matches text after)
      (more : Munches line rest tokens errors) :
      Munches line (c :: rest) tokens (⟨.unexpectedCharacter c, line⟩ :: errors)

namespace Munches

variable {line : Nat} {tokens : List Token} {errors : List LexicalError}

theorem spaces {text after : List Char} (h : ∀ c ∈ text, isSpace c = true)
    (more : Munches (line + text.count '\n') after tokens errors) :
    Munches line (text ++ after) tokens errors := by
  induction text generalizing line with
  | nil => exact more
  | cons c rest ih =>
      rw [List.forall_mem_cons] at h
      refine .space h.1 (ih h.2 ?_)
      rwa [Nat.add_assoc, ← List.count_append]

/-- What segments are seen as, one after the other, is a reading by maximal munch. -/
theorem of_segments (line : Nat) (text : List Char) :
    Munches line text
      (scan Segment.token? line (segments text) ++ [eofAt (line + text.count '\n')])
      (scan Segment.error? line (segments text)) := by
  induction text using segments_induction generalizing line with
  | nil => exact .done line
  | cons c rest ih =>
      have begins := first_begins rest c
      have split := first_text c rest
      have more := ih (line + (first c rest).1.text.count '\n')
      have lines : line + (c :: rest).count '\n' =
          line + (first c rest).1.text.count '\n' + (first c rest).2.count '\n' := by
        rw [Nat.add_assoc, ← List.count_append, split]
      rw [segments_cons, scan, scan, lines, List.append_assoc]
      generalize (first c rest).1 = s at begins split more
      generalize (first c rest).2 = after at begins split more
      cases s with
      | token kind text =>
          obtain ⟨p, longest, gives⟩ := begins
          have here : text ++ after = c :: rest := split
          have piece := Munches.piece here.symm longest more
          rw [token?_of_kind gives, error?_of_kind gives] at piece
          rw [Segment.token?_token]
          exact piece
      | blanks text =>
          rw [← split]
          refine spaces (fun d hd => ?_) more
          simp [isSpace, begins.2 d hd]
      | newline =>
          rw [← split]
          exact .space rfl more
      | comment text =>
          obtain ⟨p, rfl | rfl, longest⟩ := begins <;> exact .piece split.symm longest more
      | stray d =>
          rw [← split]
          have nothing : ∀ (p : Pattern) (text other : List Char), d :: after = text ++ other →
              ¬p.Matches text other := by
            intro p text other same fits
            obtain ⟨e, tail, rfl⟩ := List.exists_cons_of_ne_nil fits.ne_nil
            obtain ⟨rfl, -⟩ := List.cons.inj same
            cases begins.2.symm.trans fits.opening
          have newline : d ≠ '\n' := by
            rintro rfl
            cases begins.1
          have here : line + (Segment.stray d).text.count '\n' = line := by
            simp [Segment.text, newline]
          rw [here] at more ⊢
          exact .unexpected begins.1 nothing more
      | openString text => exact .piece split.symm begins more

/-- A text is read by maximal munch in one way only. -/
theorem unique {text : List Char} {tokens' : List Token} {errors' : List LexicalError}
    (h : Munches line text tokens errors) (h' : Munches line text tokens' errors') :
    tokens = tokens' ∧ errors = errors' := by
  have apart {c : Char} {rest text after : List Char} {p : Pattern} (space : isSpace c = true)
      (split : c :: rest = text ++ after) : ¬p.Matches text after := by
    intro fits
    obtain ⟨e, tail, rfl⟩ := List.exists_cons_of_ne_nil fits.ne_nil
    obtain ⟨rfl, -⟩ := List.cons.inj split
    cases (opening?_of_isSpace space).symm.trans fits.opening
  induction h generalizing tokens' errors' with
  | done line =>
      cases h' with
      | done => exact ⟨rfl, rfl⟩
      | piece split longest more =>
          exact absurd (List.append_eq_nil_iff.1 split.symm).1 longest.fits.ne_nil
  | space space more ih =>
      cases h' with
      | space _ more' => exact ih more'
      | piece split longest _ => exact absurd longest.fits (apart space split)
      | unexpected other _ _ => cases space.symm.trans other
  | piece split longest more ih =>
      cases h' with
      | done => exact absurd (List.append_eq_nil_iff.1 split.symm).1 longest.fits.ne_nil
      | space space _ => exact absurd longest.fits (apart space split)
      | piece split' longest' more' =>
          obtain ⟨rfl, rfl, rfl⟩ := longest.unique longest' (split.symm.trans split')
          obtain ⟨rfl, rfl⟩ := ih more'
          exact ⟨rfl, rfl⟩
      | unexpected _ nothing _ => exact absurd longest.fits (nothing _ _ _ split)
  | unexpected other nothing more ih =>
      cases h' with
      | space space _ => cases space.symm.trans other
      | piece split longest _ => exact absurd longest.fits (nothing _ _ _ split)
      | unexpected _ _ more' =>
          obtain ⟨rfl, rfl⟩ := ih more'
          exact ⟨rfl, rfl⟩

/-- Every token but the end mark is a longest match of a pattern that makes tokens. -/
theorem exists_piece {text : List Char} (h : Munches line text tokens errors) :
    ∀ t ∈ tokens, (∃ last, t = eofAt last) ∨ ∃ (p : Pattern) (lexeme after : List Char)
      (last : Nat), p.Longest lexeme after ∧ p.token? lexeme last = some t := by
  induction h with
  | done line => exact fun t ht => .inl ⟨line, List.mem_singleton.1 ht⟩
  | space _ _ ih | unexpected _ _ _ ih => exact ih
  | piece split longest _ ih =>
      intro t ht
      obtain here | later := List.mem_append.1 ht
      · exact .inr ⟨_, _, _, _, longest, Option.mem_toList.1 here⟩
      · exact ih t later

end Munches

theorem munches_read (text : String) :
    Munches 1 text.toList (read text).tokens (read text).errors := by
  rw [read_eq]
  exact .of_segments 1 text.toList

/-- A word has the kind of the reserved word that it is, or else is an identifier. -/
theorem ofWord_cases (word : String) : (word, Kind.ofWord word) ∈ Kind.reserved ∨
    Kind.ofWord word = .identifier ∧ word ∉ Kind.reserved.map Prod.fst := by
  unfold Kind.ofWord
  cases h : Kind.reserved.lookup word with
  | none =>
      refine .inr ⟨rfl, fun mem => ?_⟩
      obtain ⟨⟨w, kind⟩, hw, rfl⟩ := List.mem_map.1 mem
      simpa using List.lookup_eq_none_iff.1 h _ hw
  | some kind =>
      obtain ⟨front, back, he, -⟩ := List.lookup_eq_some_iff.1 h
      exact .inl (by simp [he])

/-- The tokens of keyword kinds are those whose lexeme is a reserved word, and it is theirs. -/
def RightlyReserved (lexeme : String) (kind : Kind) : Prop :=
  (kind.isKeyword = true ↔ lexeme ∈ Kind.reserved.map Prod.fst) ∧
    (kind.isKeyword = true → (lexeme, kind) ∈ Kind.reserved)

theorem rightlyReserved_of_not {lexeme : String} {kind : Kind} (plain : kind.isKeyword = false)
    (other : lexeme ∉ Kind.reserved.map Prod.fst) : RightlyReserved lexeme kind := by
  simp [RightlyReserved, plain, other]

theorem rightlyReserved_ofWord (word : String) : RightlyReserved word (Kind.ofWord word) := by
  obtain mem | ⟨same, other⟩ := ofWord_cases word
  · have keyword : (Kind.ofWord word).isKeyword = true := List.any_eq_true.2 ⟨_, mem, by simp⟩
    exact ⟨iff_of_true keyword (List.mem_map_of_mem mem), fun _ => mem⟩
  · rw [same]
    exact rightlyReserved_of_not rfl other

theorem rightlyReserved_of_kind? {p : Pattern} {text after : List Char} {kind : Kind}
    (fits : p.Matches text after) (gives : p.kind? text = some kind) :
    RightlyReserved (String.ofList text) kind := by
  have letters : ∀ w ∈ Kind.reserved, w.1.toList.head?.bind opening? = some .word := by decide
  -- Only words begin as the reserved words do.
  have other (sort : p.opening ≠ .word) :
      String.ofList text ∉ Kind.reserved.map Prod.fst := by
    intro mem
    obtain ⟨w, hw, same⟩ := List.mem_map.1 mem
    have word := letters w hw
    rw [same, String.toList_ofList, fits.opening] at word
    exact sort (Option.some.inj word)
  cases p with
  | mark k =>
      have plain : ∀ m ∈ marks, m.2.isKeyword = false := by decide
      cases gives
      exact rightlyReserved_of_not (plain _ fits) (other nofun)
  | number | string =>
      cases gives
      exact rightlyReserved_of_not rfl (other nofun)
  | word =>
      cases gives
      exact rightlyReserved_ofWord _
  | lineComment | blockComment | openString => cases gives

theorem quoted_of_kind? {p : Pattern} {text after : List Char}
    (fits : p.Matches text after) (gives : p.kind? text = some .string) :
    ∃ body, '"' ∉ body ∧ text = '"' :: body ++ ['"'] := by
  cases p with
  | mark k =>
      have others : ∀ m ∈ marks, m.2 ≠ .string := by decide
      exact absurd (Option.some.inj gives) (others _ fits)
  | string => exact fits
  | word =>
      have others : ∀ w ∈ Kind.reserved, w.2 ≠ .string := by decide
      have same : Kind.ofWord (String.ofList text) = .string := Option.some.inj gives
      obtain mem | ⟨identifier, -⟩ := ofWord_cases (String.ofList text)
      · exact absurd same (others _ mem)
      · cases identifier.symm.trans same
  | number | lineComment | blockComment | openString => cases gives

/-- The reading of a text is its only reading by maximal munch. A token is a keyword exactly if its
lexeme is a reserved word, and a string stands for what is between its quotes, where there are no
others. -/
theorem read_by_maximal_munch (text : String) :
    (∀ tokens errors, read text = ⟨tokens, errors⟩ ↔ Munches 1 text.toList tokens errors) ∧
      ∀ t ∈ (read text).tokens,
        RightlyReserved t.lexeme t.kind ∧
          (t.kind = .string → ∃ body, '"' ∉ body ∧ t.lexeme.toList = '"' :: body ++ ['"'] ∧
            t.literal = some (.string (String.ofList body))) := by
  have munches := munches_read text
  refine ⟨fun tokens errors => ⟨fun h => ?_, fun h => ?_⟩, fun t ht => ?_⟩
  · rwa [h] at munches
  · obtain ⟨same, same'⟩ := munches.unique h
    rw [← same, ← same']
  · obtain ⟨line, rfl⟩ | ⟨p, lexeme, after, line, longest, made⟩ := munches.exists_piece t ht
    · exact ⟨rightlyReserved_of_not rfl (by decide : "" ∉ Kind.reserved.map Prod.fst), nofun⟩
    · obtain ⟨kind, gives, rfl⟩ := Pattern.exists_kind_of_token? made
      refine ⟨rightlyReserved_of_kind? longest.fits gives, fun string => ?_⟩
      obtain rfl : kind = .string := string
      obtain ⟨body, closed, rfl⟩ := quoted_of_kind? longest.fits gives
      exact ⟨body, closed, by simp [tokenOf], by simp [tokenOf, contents]⟩

end Lexical
end Lox
