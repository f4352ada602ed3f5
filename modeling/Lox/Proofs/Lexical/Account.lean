import Lox.Proofs.Lexical.Munch

/-!
The account of a text: its segments, joined, are the text, each of them is what the rest of the text
begins with at its place, and the tokens and errors are those of the segments, on lines that count
the newlines of the text itself.
-/

namespace Lox

/-- The error that a segment is if it is a character out of place, when it begins on some line. -/
def Segment.stray? (line : Nat) : Segment → Option LexicalError
  | stray c => some ⟨.unexpectedCharacter c, line⟩
  | _ => none

def Segment.open? (line : Nat) : Segment → Option LexicalError
  | openString _ => some ⟨.unterminatedString, line⟩
  | _ => none

namespace Lexical

/-- What is seen of parts in their order, each with the newlines that stand before it and with those
that stand before its end. -/
def seen {α : Type} (look : Nat → Nat → Segment → Option α) (parts : List Segment) : List α :=
  parts.zipIdx.filterMap fun p =>
    look (newlines (parts.take p.2)) (newlines (parts.take (p.2 + 1))) p.1

/-- Parts of a text account for what it is read as. -/
structure Accounts (text : List Char) (parts : List Segment) (reading : Reading) : Prop where
  /-- Joined, the parts are the text. -/
  joined : parts.flatMap Segment.text = text
  /-- Each part is what the text that is left at its place begins with. -/
  begins : ∀ front s back, parts = front ++ s :: back → s.Begins (back.flatMap Segment.text)
  /-- Only the last part can be a string that is still open. -/
  openLast : ∀ front body back, parts = front ++ .openString body :: back → back = []
  /-- The tokens are those of the parts, each on the line of its end, and one end mark. -/
  tokens : reading.tokens = seen (fun _ upTo s => s.token? (1 + upTo)) parts ++
    [{ kind := .eof, lexeme := "", literal := none, line := 1 + text.count '\n' }]
  regular : ∀ t ∈ reading.tokens.dropLast, t.kind ≠ .eof
  /-- The errors are the characters out of place, each on its line, and at last, on the line of the
  end mark, the open string if there is one. -/
  errors : reading.errors = seen (fun before _ s => s.stray? (1 + before)) parts ++
    (parts.getLast?.bind (Segment.open? (1 + text.count '\n'))).toList

section seen

variable {α : Type}

theorem seen_cons (look : Nat → Nat → Segment → Option α) (s : Segment) (rest : List Segment) :
    seen look (s :: rest) = (look 0 (s.text.count '\n') s).toList ++
      seen (fun before upTo => look (s.text.count '\n' + before) (s.text.count '\n' + upTo))
        rest := by
  have nothing : newlines [] = 0 := rfl
  have first : newlines [s] = s.text.count '\n' := newlines_cons s []
  rw [seen, List.zipIdx_cons, List.filterMap_cons, List.zipIdx_succ, List.filterMap_map, seen]
  simp only [Function.comp_def, List.take_succ_cons, List.take_zero, nothing, first, newlines_cons]
  cases look 0 (s.text.count '\n') s <;> rfl

theorem scan_eq_seen (look : Nat → Segment → Option α) (line : Nat) (parts : List Segment) :
    scan look line parts = seen (fun _ upTo => look (line + upTo)) parts := by
  induction parts generalizing line with
  | nil => rfl
  | cons s rest ih => simp only [scan, seen_cons, ih, Nat.add_assoc]

end seen

theorem scan_errors_eq_seen (line : Nat) (parts : List Segment)
    (stray : ∀ c, .stray c ∈ parts → c ≠ '\n')
    (openLast : ∀ front body back, parts = front ++ .openString body :: back → back = []) :
    scan Segment.error? line parts = seen (fun before _ s => s.stray? (line + before)) parts ++
      (parts.getLast?.bind (Segment.open? (line + newlines parts))).toList := by
  induction parts generalizing line with
  | nil => rfl
  | cons s rest ih =>
      have ih := ih (line + s.text.count '\n') (fun c hc => stray c (List.mem_cons_of_mem s hc))
        fun front body back he => openLast (s :: front) body back (congrArg (s :: ·) he)
      rw [scan, ih, seen_cons]
      simp only [Nat.add_assoc, newlines_cons]
      cases s with
      | openString body =>
          obtain rfl := openLast [] body rest rfl
          rfl
      | stray c =>
          have none : (Segment.stray c).text.count '\n' = 0 := by
            simp [Segment.text, stray c List.mem_cons_self]
          cases rest with
          | nil => simp [none, Segment.error?, Segment.stray?, Segment.open?]
          | cons next rest => simp [none, Segment.error?, Segment.stray?]
      | token | blanks | newline | comment =>
          cases rest with
          | nil => rfl
          | cons next rest => simp [Segment.error?, Segment.stray?]

/-- A part of a text is what the text that is left at its place begins with, and what follows are
the parts of what follows. -/
theorem begins_of_segments {text : List Char} {front back : List Segment} {s : Segment}
    (h : segments text = front ++ s :: back) :
    s.Begins (back.flatMap Segment.text) ∧ segments (back.flatMap Segment.text) = back := by
  induction text using segments_induction generalizing front with
  | nil => simp [segments_nil] at h
  | cons c rest ih =>
      rw [segments_cons] at h
      cases front with
      | nil =>
          obtain ⟨rfl, rfl⟩ := List.cons.inj h
          rw [flatMap_text_segments]
          exact ⟨first_begins rest c, rfl⟩
      | cons f front => exact ih (List.cons.inj h).2

/-- The segments of a text account for what it is read as. -/
theorem read_accounts (text : String) :
    Accounts text.toList (segments text.toList) (read text) := by
  have begins (front : List Segment) (s : Segment) (back : List Segment)
      (h : segments text.toList = front ++ s :: back) := begins_of_segments h
  have openLast (front : List Segment) (body : List Char) (back : List Segment)
      (h : segments text.toList = front ++ .openString body :: back) : back = [] := by
    obtain ⟨⟨⟨_, -, -, nothing⟩, -⟩, parts⟩ := begins front _ back h
    rwa [nothing, segments_nil, eq_comm] at parts
  have stray (c : Char) (mem : .stray c ∈ segments text.toList) : c ≠ '\n' := by
    obtain ⟨front, back, h⟩ := List.append_of_mem mem
    rintro rfl
    cases (begins front _ back h).1.1
  obtain ⟨front, line, tokens, regular⟩ := read_tokens text
  refine ⟨flatMap_text_segments _, fun front s back h => (begins front s back h).1, openLast, ?_,
    fun t ht => ?_, ?_⟩
  · rw [read_eq, scan_eq_seen]
    rfl
  · rw [tokens, List.dropLast_concat] at ht
    exact (regular t ht).1
  · rw [read_eq, ← newlines_segments]
    exact scan_errors_eq_seen 1 _ stray openLast

end Lexical
end Lox
