import Lox.Proofs.Lexical.Seam
import Lox.Proofs.Lexical.Tokens

/-!
The patterns of the lexical grammar, and when a match of one is the longest of all. A text can begin
a match of only one sort of pattern, so that a match competes with few others, and what follows it
decides whether it is the longest.
-/

namespace Lox
namespace Lexical

def marks : List (List Char × Kind) :=
  [(['('], .leftParen), ([')'], .rightParen), (['{'], .leftBrace), (['}'], .rightBrace),
    ([','], .comma), (['.'], .dot), (['-'], .minus), (['+'], .plus), ([';'], .semicolon),
    (['/'], .slash), (['*'], .star), (['!'], .bang), (['!', '='], .bangEqual), (['='], .equal),
    (['=', '='], .equalEqual), (['>'], .greater), (['>', '='], .greaterEqual), (['<'], .less),
    (['<', '='], .lessEqual)]

def isSpace (c : Char) : Bool := isBlank c || c == '\n'

def Digits (text : List Char) : Prop := text ≠ [] ∧ ∀ c ∈ text, c.isDigit = true

/-- What the lexical grammar lists: the sorts of tokens, comments, and strings without an end. -/
inductive Pattern
  | mark (kind : Kind)
  | number
  | string
  | word
  | lineComment
  | blockComment
  | openString
  deriving DecidableEq

namespace Pattern

/-- A pattern matches a text when that is followed by some other. What follows matters only to the
patterns that run on to a newline or to the end. -/
def Matches (text after : List Char) : Pattern → Prop
  | mark kind => (text, kind) ∈ marks
  | number => Digits text ∨
      ∃ whole fraction, Digits whole ∧ Digits fraction ∧ text = whole ++ '.' :: fraction
  | string => ∃ body, '"' ∉ body ∧ text = '"' :: body ++ ['"']
  | word => ∃ c more, isWordStart c = true ∧ (∀ d ∈ more, isWordPart d = true) ∧ text = c :: more
  | lineComment =>
      ∃ body, '\n' ∉ body ∧ text = '/' :: '/' :: body ∧ ∀ c ∈ after.head?, c = '\n'
  | blockComment =>
      (∃ body, ¬['*', '/'] <:+: body ++ ['*'] ∧ text = '/' :: '*' :: body ++ ['*', '/']) ∨
        ∃ body, ¬['*', '/'] <:+: body ∧ text = '/' :: '*' :: body ∧ after = []
  | openString => ∃ body, '"' ∉ body ∧ text = '"' :: body ∧ after = []

def kind? (text : List Char) : Pattern → Option Kind
  | mark kind => some kind
  | number => some .number
  | string => some .string
  | word => some (.ofWord (String.ofList text))
  | lineComment | blockComment | openString => none

structure Longest (p : Pattern) (text after : List Char) : Prop where
  fits : p.Matches text after
  longest : ∀ (q : Pattern) (other rest : List Char), text ++ after = other ++ rest →
    q.Matches other rest → other.length ≤ text.length

end Pattern

inductive Opening
  | mark | number | quote | word
  deriving DecidableEq

def opening? (c : Char) : Option Opening :=
  if c == '"' then some .quote
  else if c.isDigit then some .number
  else if isWordStart c then some .word
  else if (mark? c).isSome then some .mark
  else none

def Pattern.opening : Pattern → Opening
  | mark _ | lineComment | blockComment => .mark
  | number => .number
  | string | openString => .quote
  | word => .word

theorem mem_marks_iff {text : List Char} {kind : Kind} : (text, kind) ∈ marks ↔
    (∃ c, text = [c] ∧ mark? c = some kind) ∨
      ∃ c, text = [c, '='] ∧ markWithEqual? c = some kind := by
  constructor
  · have forms : ∀ m ∈ marks, (m.1.tail = [] ∧ m.1.head?.bind mark? = some m.2) ∨
        (m.1.tail = ['='] ∧ m.1.head?.bind markWithEqual? = some m.2) := by decide
    intro h
    cases text with
    | nil => simpa using forms _ h
    | cons c more =>
        obtain ⟨ht, hm⟩ | ⟨ht, hm⟩ := forms _ h
        · exact .inl ⟨c, congrArg (c :: ·) ht, hm⟩
        · exact .inr ⟨c, congrArg (c :: ·) ht, hm⟩
  · rintro (⟨c, rfl, h⟩ | ⟨c, rfl, h⟩)
    · unfold mark? at h
      split at h <;> cases h <;> decide
    · unfold markWithEqual? at h
      split at h <;> cases h <;> decide

theorem isDigit_eq_false_of_isWordStart {c : Char} (h : isWordStart c = true) :
    c.isDigit = false := by
  have start : isWordStart c = (decide (65 ≤ c.val ∧ c.val ≤ 90) ||
      (decide (97 ≤ c.val) && decide (c.val ≤ 122)) || c == '_') := rfl
  have digit : c.isDigit = (decide (48 ≤ c.val) && decide (c.val ≤ 57)) := rfl
  rw [digit, Bool.eq_false_iff]
  intro hd
  simp only [start, Bool.or_eq_true, Bool.and_eq_true, decide_eq_true_eq, beq_iff_eq] at h hd
  obtain h | rfl := h
  · grind
  · revert hd
    decide

theorem isWordPart_iff {c : Char} :
    isWordPart c = true ↔ isWordStart c = true ∨ c.isDigit = true := by
  simp only [isWordPart, isWordStart, Char.isAlphanum, Bool.or_eq_true]
  exact or_right_comm

theorem opening?_of_isDigit {c : Char} (h : c.isDigit = true) : opening? c = some .number := by
  have quote : c ≠ '"' := by
    rintro rfl
    revert h
    decide
  simp [opening?, quote, h]

theorem opening?_of_isWordStart {c : Char} (h : isWordStart c = true) :
    opening? c = some .word := by
  have quote : c ≠ '"' := by
    rintro rfl
    revert h
    decide
  simp [opening?, quote, isDigit_eq_false_of_isWordStart h, h]

theorem opening?_of_isSpace {c : Char} (h : isSpace c = true) : opening? c = none := by
  simp only [isSpace, isBlank, Bool.or_eq_true, beq_iff_eq] at h
  obtain ((rfl | rfl) | rfl) | rfl := h <;> decide

theorem Digits.append_cons_inj {text other more rest : List Char} {c d : Char}
    (digits : Digits text) (digits' : Digits other) (hc : c.isDigit = false)
    (hd : d.isDigit = false) (h : text ++ c :: more = other ++ d :: rest) :
    text = other ∧ c = d ∧ more = rest := by
  have cut := congrArg (List.takeWhile Char.isDigit) h
  rw [List.takeWhile_append_of_pos digits.2, List.takeWhile_append_of_pos digits'.2,
    List.takeWhile_cons_of_neg (by simp [hc]), List.takeWhile_cons_of_neg (by simp [hd]),
    List.append_nil, List.append_nil] at cut
  subst cut
  obtain ⟨rfl, rfl⟩ := List.cons.inj (List.append_cancel_left h)
  exact ⟨rfl, rfl, rfl⟩

namespace Pattern

/-- A match begins as its pattern does. -/
theorem Matches.opening {p : Pattern} {text after : List Char} (h : p.Matches text after) :
    text.head?.bind opening? = some p.opening := by
  cases p with
  | mark kind =>
      have heads : ∀ m ∈ marks, m.1.head?.bind opening? = some .mark := by decide
      exact heads _ h
  | number =>
      obtain ⟨ne, digits⟩ | ⟨whole, fraction, ⟨ne, digits⟩, -, rfl⟩ := h
      all_goals
        obtain ⟨c, more, rfl⟩ := List.exists_cons_of_ne_nil ne
        exact opening?_of_isDigit (digits c List.mem_cons_self)
  | word =>
      obtain ⟨c, more, start, -, rfl⟩ := h
      exact opening?_of_isWordStart start
  | string =>
      obtain ⟨body, -, rfl⟩ := h
      rfl
  | openString | lineComment =>
      obtain ⟨body, -, rfl, -⟩ := h
      rfl
  | blockComment => obtain ⟨body, -, rfl⟩ | ⟨body, -, rfl, -⟩ := h <;> rfl

theorem Matches.ne_nil {p : Pattern} {text after : List Char} (h : p.Matches text after) :
    text ≠ [] := by
  rintro rfl
  cases h.opening

/-- What follows a match does not go on with it. -/
def Ends (text after : List Char) : Pattern → Prop
  | mark _ => ∀ c ∈ after.head?, text ++ [c] ∉ marks.map Prod.fst ∧
      text ++ [c] ≠ ['/', '/'] ∧ text ++ [c] ≠ ['/', '*']
  | number => (∀ c ∈ after.head?, c.isDigit = false) ∧
      ('.' ∈ text ∨ ∀ d more, after = '.' :: d :: more → d.isDigit = false)
  | word => ∀ c ∈ after.head?, isWordPart c = false
  | string | lineComment | blockComment | openString => True

/-- Where a mark can stand, only marks and comments can. -/
theorem Matches.of_opening_mark {q : Pattern} {text after : List Char} (h : q.Matches text after)
    (sort : q.opening = .mark) :
    text ∈ marks.map Prod.fst ∨ ['/', '/'] <+: text ∨ ['/', '*'] <+: text := by
  cases q with
  | mark kind => exact .inl (List.mem_map_of_mem h)
  | lineComment =>
      obtain ⟨body, -, rfl, -⟩ := h
      exact .inr (.inl (List.prefix_append _ body))
  | blockComment =>
      obtain ⟨body, -, rfl⟩ | ⟨body, -, rfl, -⟩ := h
      · exact .inr (.inr (List.prefix_append _ (body ++ _)))
      · exact .inr (.inr (List.prefix_append _ body))
  | number | string | openString | word => cases sort

theorem length_le_of_mem_marks {text : List Char} (h : text ∈ marks.map Prod.fst) :
    text.length ≤ 2 := by
  obtain ⟨⟨text, kind⟩, mem, rfl⟩ := List.mem_map.1 h
  obtain ⟨c, rfl, -⟩ | ⟨c, rfl, -⟩ := mem_marks_iff.1 mem <;> simp

theorem prefix_of_append_cons_eq_concat {front other more : List Char} {d e : Char}
    (h : front ++ d :: more = other ++ [e]) : front <+: other := by
  obtain ⟨back, last, he⟩ := List.eq_nil_or_concat (d :: more) |>.resolve_left (by simp)
  rw [he, List.concat_eq_append, ← List.append_assoc] at h
  exact ⟨back, List.append_inj_left' h rfl⟩

section extended

variable {q : Pattern} {text more rest : List Char} {d : Char}

theorem not_matches_of_mark {kind : Kind} (h : (text, kind) ∈ marks)
    (ends : (mark kind).Ends text (d :: more ++ rest)) (sort : q.opening = .mark) :
    ¬q.Matches (text ++ d :: more) rest := by
  intro hq
  obtain ⟨known, line, block⟩ := ends d rfl
  have others := hq.of_opening_mark sort
  obtain ⟨c, rfl, -⟩ | ⟨c, rfl, -⟩ := mem_marks_iff.1 h
  · obtain short | starts | starts := others
    · obtain rfl : more = [] := by simpa using length_le_of_mem_marks short
      exact known short
    · obtain ⟨rfl, rfl⟩ : '/' = c ∧ '/' = d := by simpa using starts
      exact line rfl
    · obtain ⟨rfl, rfl⟩ : '/' = c ∧ '*' = d := by simpa using starts
      exact block rfl
  · obtain short | starts | starts := others
    · simpa using length_le_of_mem_marks short
    · simp at starts
    · simp at starts

theorem not_matches_of_lineComment (h : lineComment.Matches text (d :: more ++ rest))
    (sort : q.opening = .mark) : ¬q.Matches (text ++ d :: more) rest := by
  intro hq
  obtain ⟨body, -, rfl, stop⟩ := h
  obtain rfl := stop d rfl
  cases q with
  | mark kind => simpa using length_le_of_mem_marks (List.mem_map_of_mem hq)
  | lineComment =>
      obtain ⟨other, line, he, -⟩ := hq
      obtain rfl : body ++ '\n' :: more = other := by simpa using he
      exact line (by simp)
  | blockComment => obtain ⟨other, -, he⟩ | ⟨other, -, he, -⟩ := hq <;> simp at he
  | number | string | openString | word => cases sort

theorem not_matches_of_blockComment (h : blockComment.Matches text (d :: more ++ rest))
    (sort : q.opening = .mark) : ¬q.Matches (text ++ d :: more) rest := by
  intro hq
  obtain ⟨body, -, rfl⟩ | ⟨body, -, -, ends⟩ := h
  · have closed : ['*', '/'] <:+: body ++ ['*', '/'] := List.infix_append' body _ []
    cases q with
    | mark kind => simpa using length_le_of_mem_marks (List.mem_map_of_mem hq)
    | lineComment =>
        obtain ⟨other, -, he, -⟩ := hq
        simp at he
    | blockComment =>
        obtain ⟨other, unclosed, he⟩ | ⟨other, unclosed, he, -⟩ := hq
        · have same : body ++ ['*', '/'] ++ d :: more = other ++ ['*'] ++ ['/'] := by
            simpa using he
          exact unclosed (closed.trans (prefix_of_append_cons_eq_concat same).isInfix)
        · obtain rfl : body ++ ['*', '/'] ++ d :: more = other := by simpa using he
          exact unclosed (closed.trans (List.prefix_append _ _).isInfix)
    | number | string | openString | word => cases sort
  · cases ends

theorem not_matches_of_string (h : string.Matches text (d :: more ++ rest))
    (sort : q.opening = .quote) : ¬q.Matches (text ++ d :: more) rest := by
  intro hq
  obtain ⟨body, -, rfl⟩ := h
  have quote : '"' ∈ body ++ ['"'] := by simp
  cases q with
  | string =>
      obtain ⟨other, unclosed, he⟩ := hq
      have same : body ++ ['"'] ++ d :: more = other ++ ['"'] := by simpa using he
      exact unclosed ((prefix_of_append_cons_eq_concat same).subset quote)
  | openString =>
      obtain ⟨other, unclosed, he, -⟩ := hq
      obtain rfl : body ++ ['"'] ++ d :: more = other := by simpa using he
      exact unclosed (List.mem_append_left _ quote)
  | mark | number | lineComment | blockComment | word => cases sort

theorem not_matches_of_word (ends : word.Ends text (d :: more ++ rest))
    (h : word.Matches text (d :: more ++ rest)) (sort : q.opening = .word) :
    ¬q.Matches (text ++ d :: more) rest := by
  intro hq
  obtain ⟨c, tail, -, -, rfl⟩ := h
  cases q with
  | word =>
      obtain ⟨e, other, -, parts, he⟩ := hq
      obtain ⟨-, rfl⟩ := List.cons.inj he
      exact Bool.eq_false_iff.1 (ends d rfl) (parts d (by simp))
  | mark | number | string | lineComment | blockComment | openString => cases sort

theorem not_matches_of_number (ends : number.Ends text (d :: more ++ rest))
    (h : number.Matches text (d :: more ++ rest)) (sort : q.opening = .number) :
    ¬q.Matches (text ++ d :: more) rest := by
  intro hq
  have other : d.isDigit = false := ends.1 d rfl
  have point : Char.isDigit '.' = false := rfl
  cases q with
  | number =>
      obtain ⟨-, digits'⟩ | ⟨whole', fraction', digits', ⟨ne, more'⟩, he⟩ := hq
      · exact Bool.eq_false_iff.1 other (digits' d (by simp))
      · obtain digits | ⟨whole, fraction, digits, -, rfl⟩ := h
        · obtain ⟨rfl, rfl, rfl⟩ := digits.append_cons_inj digits' other point he
          obtain mem | next := ends.2
          · exact Bool.eq_false_iff.1 point (digits.2 _ mem)
          · obtain ⟨e, last, rfl⟩ := List.exists_cons_of_ne_nil ne
            exact Bool.eq_false_iff.1 (next e _ rfl) (more' e List.mem_cons_self)
        · rw [List.append_assoc, List.cons_append] at he
          obtain ⟨-, -, rfl⟩ := digits.append_cons_inj digits' point point he
          exact Bool.eq_false_iff.1 other (more' d (by simp))
  | mark | string | lineComment | blockComment | openString | word => cases sort

end extended

/-- A match that what follows does not go on with is the longest. -/
theorem longest_of_ends {p : Pattern} {text after : List Char} (h : p.Matches text after)
    (ends : p.Ends text after) : p.Longest text after := by
  refine ⟨h, fun q other rest he hq => ?_⟩
  by_contra longer
  obtain ⟨back, rfl, rfl⟩ | ⟨back, rfl, rfl⟩ := List.append_eq_append_iff.1 he
  · cases back with
    | nil => simp at longer
    | cons d more =>
        have sort : q.opening = p.opening := by
          obtain ⟨c, tail, rfl⟩ := List.exists_cons_of_ne_nil h.ne_nil
          exact Option.some.inj (hq.opening.symm.trans h.opening)
        cases p with
        | mark kind => exact not_matches_of_mark h ends sort hq
        | number => exact not_matches_of_number ends h sort hq
        | string => exact not_matches_of_string h sort hq
        | word => exact not_matches_of_word ends h sort hq
        | lineComment => exact not_matches_of_lineComment h sort hq
        | blockComment => exact not_matches_of_blockComment h sort hq
        | openString =>
            obtain ⟨-, -, -, nothing⟩ := h
            cases nothing
  · simp at longer

def of? : List Char → Option Pattern
  | [] => none
  | '/' :: '/' :: _ => some lineComment
  | '/' :: '*' :: _ => some blockComment
  | '"' :: rest => some (if '"' ∈ rest then string else openString)
  | c :: rest =>
      if c.isDigit then some number
      else if isWordStart c then some word
      else (marks.lookup (c :: rest)).map mark

theorem of?_cons {c : Char} (quote : c ≠ '"') (slash : c ≠ '/') (rest : List Char) :
    of? (c :: rest) =
      if c.isDigit then some number
      else if isWordStart c then some word
      else (marks.lookup (c :: rest)).map mark := by
  unfold of?
  split <;> simp_all

theorem Matches.of?_eq {p : Pattern} {text after : List Char} (h : p.Matches text after) :
    of? text = some p := by
  cases p with
  | mark kind =>
      have table : ∀ m ∈ marks, of? m.1 = some (mark m.2) := by decide
      exact table _ h
  | number =>
      obtain ⟨ne, digits⟩ | ⟨whole, fraction, ⟨ne, digits⟩, -, rfl⟩ := h
      all_goals
        obtain ⟨c, more, rfl⟩ := List.exists_cons_of_ne_nil ne
        have digit := digits c List.mem_cons_self
        have other : c ≠ '"' ∧ c ≠ '/' := by constructor <;> rintro rfl <;> cases digit
        exact (of?_cons other.1 other.2 _).trans (if_pos digit)
  | string =>
      obtain ⟨body, -, rfl⟩ := h
      simp [of?]
  | word =>
      obtain ⟨c, more, start, -, rfl⟩ := h
      have other : c ≠ '"' ∧ c ≠ '/' := by constructor <;> rintro rfl <;> cases start
      rw [of?_cons other.1 other.2, if_pos start,
        if_neg (Bool.eq_false_iff.1 (isDigit_eq_false_of_isWordStart start))]
  | lineComment =>
      obtain ⟨body, -, rfl, -⟩ := h
      rfl
  | blockComment => obtain ⟨body, -, rfl⟩ | ⟨body, -, rfl, -⟩ := h <;> rfl
  | openString =>
      obtain ⟨body, unclosed, rfl, -⟩ := h
      simp [of?, unclosed]

/-- The longest match at a place is the only one. -/
theorem Longest.unique {p q : Pattern} {text after other rest : List Char}
    (h : p.Longest text after) (h' : q.Longest other rest) (same : text ++ after = other ++ rest) :
    p = q ∧ text = other ∧ after = rest := by
  have length : text.length = other.length :=
    Nat.le_antisymm (h'.longest p text after same.symm h.fits) (h.longest q other rest same h'.fits)
  obtain ⟨rfl, rfl⟩ := List.append_inj same length
  exact ⟨Option.some.inj (h.fits.of?_eq.symm.trans h'.fits.of?_eq), rfl, rfl⟩

end Pattern
end Lexical
end Lox
