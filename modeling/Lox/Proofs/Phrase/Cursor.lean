import Lox.Lexical.Reading
import Lox.Proofs.Phrase.Program

/-!
Cursors: places among tokens, with no end mark before them. A cursor always stands at a token.
Behind the last of tokens without an end mark, that is one made up for the purpose, on the line of
the last token.
-/

namespace Lox

namespace Token

def location (t : Token) : Location := if t.kind = .eof then .atEnd else .lexeme t.lexeme

def report (t : Token) (problem : Problem) : Diagnostic :=
  ⟨problem.code, t.line, t.location, problem.message⟩

end Token

structure Cursor (tokens : List Token) where
  position : Nat
  inside : position ≤ tokens.length
  regular : ∀ t ∈ tokens.take position, t.kind ≠ .eof

namespace Cursor

open Program (body lineOfEnd)

variable {tokens : List Token}

/-- The end mark that is made up behind tokens. -/
def mark (tokens : List Token) : Token :=
  Lexical.eofAt ((tokens.getLast?.map Token.line).getD 1)

def start (tokens : List Token) : Cursor tokens := ⟨0, Nat.zero_le _, by simp⟩

def current (c : Cursor tokens) : Token := tokens[c.position]?.getD (mark tokens)

def isAtEnd (c : Cursor tokens) : Bool := c.current.kind == .eof

def previous? (c : Cursor tokens) : Option Token :=
  if c.position = 0 then none else tokens[c.position - 1]?

theorem getElem?_position {c : Cursor tokens} (h : c.isAtEnd = false) :
    tokens[c.position]? = some c.current := by
  rw [isAtEnd, current] at h
  rw [current]
  cases ht : tokens[c.position]? with
  | none => simp [ht, mark, Lexical.eofAt] at h
  | some t => rfl

theorem position_lt {c : Cursor tokens} (h : c.isAtEnd = false) : c.position < tokens.length :=
  (List.getElem?_eq_some_iff.1 (getElem?_position h)).1

theorem take_succ {c : Cursor tokens} (h : c.isAtEnd = false) :
    tokens.take (c.position + 1) = tokens.take c.position ++ [c.current] := by
  rw [List.take_add_one, getElem?_position h]
  rfl

theorem kind_ne_eof {c : Cursor tokens} (h : c.isAtEnd = false) : c.current.kind ≠ .eof := by
  simpa [isAtEnd] using h

/-- The cursor at the next token. At the end it stays where it is. -/
def advance (c : Cursor tokens) : Cursor tokens :=
  if h : c.isAtEnd then c
  else
    { position := c.position + 1
      inside := position_lt (by simpa using h)
      regular := by
        have going : c.isAtEnd = false := by simpa using h
        rw [take_succ going]
        exact List.forall_mem_append.2
          ⟨c.regular, List.forall_mem_singleton.2 (kind_ne_eof going)⟩ }

theorem advance_of_isAtEnd {c : Cursor tokens} (h : c.isAtEnd = true) : c.advance = c :=
  dif_pos h

theorem position_advance {c : Cursor tokens} (h : c.isAtEnd = false) :
    c.advance.position = c.position + 1 := by
  simp [advance, h]

/-- A cursor from which reading can go on after a fault: at the end, behind a semicolon, or at a
word with which a statement begins. -/
def isBoundary (c : Cursor tokens) : Bool :=
  c.isAtEnd || c.previous?.map Token.kind == some .semicolon ||
    Reader.boundary.contains c.current.kind

def toBoundary (c : Cursor tokens) : Cursor tokens :=
  if c.isBoundary then c else c.advance.toBoundary
termination_by tokens.length - c.position
decreasing_by
  have going : c.isAtEnd = false := by
    rename_i h
    cases hc : c.isAtEnd <;> simp_all [isBoundary]
  have := position_lt going
  rw [position_advance going]
  omega

/-- Where reading goes on after a fault: at the first boundary behind a token. -/
def synchronize (c : Cursor tokens) : Cursor tokens := c.advance.toBoundary

/-- The tokens from a cursor on, up to the first end mark. -/
def ahead (c : Cursor tokens) : List Token := body (tokens.drop c.position)

theorem take_append_ahead (c : Cursor tokens) :
    tokens.take c.position ++ c.ahead = body tokens := by
  have regular : ∀ t ∈ tokens.take c.position, (t.kind != .eof) = true := by
    simpa using c.regular
  have whole : body (tokens.take c.position ++ tokens.drop c.position) =
      tokens.take c.position ++ c.ahead := List.takeWhile_append_of_pos regular
  rw [← whole, List.take_append_drop]

@[simp] theorem ahead_start : (start tokens).ahead = body tokens := by
  rw [ahead, start, List.drop_zero]

theorem length_ahead_le (c : Cursor tokens) : c.ahead.length ≤ tokens.length :=
  Nat.le_trans (List.takeWhile_prefix _).length_le (List.drop_suffix _ _).length_le

/-- A cursor is at the end when nothing is ahead, and otherwise at the first token ahead. -/
theorem ahead_cases (c : Cursor tokens) :
    c.isAtEnd = true ∧ c.ahead = [] ∨
      c.isAtEnd = false ∧ c.ahead = c.current :: c.advance.ahead := by
  cases h : c.isAtEnd with
  | false =>
      obtain ⟨inside, found⟩ := List.getElem?_eq_some_iff.1 (getElem?_position h)
      have regular : (c.current.kind != .eof) = true := by simpa using kind_ne_eof h
      refine .inr ⟨rfl, ?_⟩
      rw [ahead, List.drop_eq_getElem_cons inside, found, body, List.takeWhile_cons, if_pos regular,
        ahead, position_advance h, body]
  | true =>
      refine .inl ⟨rfl, ?_⟩
      rw [isAtEnd, current] at h
      cases ht : tokens[c.position]? with
      | none => rw [ahead, List.drop_eq_nil_of_le (List.getElem?_eq_none_iff.1 ht), body,
          List.takeWhile_nil]
      | some t =>
          obtain ⟨inside, rfl⟩ := List.getElem?_eq_some_iff.1 ht
          rw [ht] at h
          have mark : (tokens[c.position].kind != .eof) = false := by simpa using h
          rw [ahead, List.drop_eq_getElem_cons inside, body, List.takeWhile_cons, mark]
          rfl

theorem line_of_isAtEnd {c : Cursor tokens} (h : c.isAtEnd = true) :
    c.current.line = lineOfEnd tokens := by
  have absent : (tokens.take c.position).find? (·.kind == .eof) = none := by
    simpa using c.regular
  have found : tokens.find? (·.kind == .eof) =
      (tokens.drop c.position).find? (·.kind == .eof) := by
    conv => lhs; rw [← List.take_append_drop c.position tokens]
    rw [List.find?_append, absent, Option.none_or]
  rw [isAtEnd, current] at h
  rw [lineOfEnd, found, current]
  cases ht : tokens[c.position]? with
  | none =>
      rw [List.drop_eq_nil_of_le (List.getElem?_eq_none_iff.1 ht)]
      rfl
  | some t =>
      obtain ⟨inside, rfl⟩ := List.getElem?_eq_some_iff.1 ht
      rw [ht] at h
      have first : (tokens[c.position] :: tokens.drop (c.position + 1)).find? (·.kind == .eof) =
          some tokens[c.position] := List.find?_cons_of_pos h
      rw [List.drop_eq_getElem_cons inside, first]
      rfl

/-- What is wrong at the first token ahead is reported where the cursor stands. -/
theorem diagnostic_ahead (c : Cursor tokens) (problem : Problem) :
    Fault.diagnostic (lineOfEnd tokens) ⟨problem, c.ahead.head?⟩ = c.current.report problem := by
  obtain ⟨ending, nothing⟩ | ⟨going, next⟩ := c.ahead_cases
  · have mark : c.current.kind = .eof := by simpa [isAtEnd] using ending
    simp [nothing, Fault.diagnostic, Token.report, Token.location, mark, line_of_isAtEnd ending]
  · simp [next, Fault.diagnostic, Token.report, Token.location, kind_ne_eof going]

theorem previous?_advance {c : Cursor tokens} (h : c.isAtEnd = false) :
    c.advance.previous? = some c.current := by
  rw [previous?, position_advance h, if_neg (Nat.succ_ne_zero _), Nat.add_sub_cancel,
    getElem?_position h]

theorem ahead_toBoundary {c : Cursor tokens} {t : Token} (h : c.previous? = some t) :
    c.toBoundary.ahead = Reader.resume (t :: c.ahead) := by
  induction c using toBoundary.induct generalizing t with
  | case1 c stop =>
      rw [toBoundary, if_pos stop]
      obtain ⟨-, nothing⟩ | ⟨going, next⟩ := c.ahead_cases
      · simp [nothing, Reader.resume]
      · have here : t.kind = .semicolon ∨ Reader.boundary.contains c.current.kind = true := by
          simpa [isBoundary, going, h] using stop
        rw [next, Reader.resume]
        obtain semicolon | word := here
        · rw [if_pos semicolon]
        · simp [word]
  | case2 c go ih =>
      obtain ⟨⟨going, other⟩, flat⟩ : (c.isAtEnd = false ∧ t.kind ≠ .semicolon) ∧
          Reader.boundary.contains c.current.kind = false := by
        simpa [isBoundary, h] using go
      obtain ⟨ending, -⟩ | ⟨-, next⟩ := c.ahead_cases
      · rw [going] at ending
        cases ending
      · rw [toBoundary, if_neg go, ih (previous?_advance going), next, Reader.resume, if_neg other]
        simp [flat]

theorem isBoundary_of_isAtEnd {c : Cursor tokens} (h : c.isAtEnd = true) : c.isBoundary = true := by
  simp [isBoundary, h]

theorem synchronize_of_isAtEnd {c : Cursor tokens} (h : c.isAtEnd = true) : c.synchronize = c := by
  rw [synchronize, advance_of_isAtEnd h, toBoundary, if_pos (isBoundary_of_isAtEnd h)]

theorem ahead_synchronize (c : Cursor tokens) : c.synchronize.ahead = Reader.resume c.ahead := by
  obtain ⟨ending, nothing⟩ | ⟨going, next⟩ := c.ahead_cases
  · rw [synchronize_of_isAtEnd ending, nothing, Reader.resume]
  · rw [synchronize, ahead_toBoundary (previous?_advance going), next]

end Cursor

end Lox
