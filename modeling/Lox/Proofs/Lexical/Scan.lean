import Lox.Lexical.Cover
import Lox.Proofs.Relabel.Tree

/-!
What a text is read as, segment by segment: the tokens and the errors stand in the order of their
segments, each on the line on which its segment ends, and the end mark on the line on which the text
ends.
-/

namespace Lox

/-- What a token stands for by its text: a number for the value of its numeral, a string for what is
between its quotes, and no other token for anything. -/
def Lexical.literal? : Kind → List Char → Option Value
  | .number, text => some (.number (numeralValue text))
  | .string, text => some (.string (String.ofList text.tail.dropLast))
  | _, _ => none

/-- The reader gives a token its kind, its text, what it stands for and its line. -/
theorem Lexical.tokenOf_eq (kind : Kind) (text : List Char) (line : Nat) :
    tokenOf kind text line =
      { kind := kind, lexeme := String.ofList text, literal := literal? kind text,
        line := line } := by
  cases kind <;> rfl

namespace Segment

/-- The token that a segment is, if it is one, when it ends on some line. -/
def token? (line : Nat) : Segment → Option Token
  | token kind text => some
      { kind := kind, lexeme := String.ofList text, literal := Lexical.literal? kind text,
        line := line }
  | _ => none

theorem token?_token (kind : Kind) (text : List Char) (line : Nat) :
    (token kind text).token? line = some (Lexical.tokenOf kind text line) :=
  congrArg some (Lexical.tokenOf_eq kind text line).symm

def error? (line : Nat) : Segment → Option LexicalError
  | stray c => some ⟨.unexpectedCharacter c, line⟩
  | openString _ => some ⟨.unterminatedString, line⟩
  | _ => none

end Segment

namespace Lexical

def newlines (segments : List Segment) : Nat := (segments.flatMap Segment.text).count '\n'

def scan {α : Type} (look : Nat → Segment → Option α) (line : Nat) : List Segment → List α
  | [] => []
  | s :: rest =>
      (look (line + s.text.count '\n') s).toList ++ scan look (line + s.text.count '\n') rest

section

variable {α : Type} (look : Nat → Segment → Option α)

theorem newlines_cons (s : Segment) (rest : List Segment) :
    newlines (s :: rest) = s.text.count '\n' + newlines rest := by
  rw [newlines, List.flatMap_cons, List.count_append, newlines]

theorem newlines_segments (text : List Char) : newlines (segments text) = text.count '\n' := by
  rw [newlines, flatMap_text_segments]

theorem scan_append (line : Nat) (front back : List Segment) :
    scan look line (front ++ back) =
      scan look line front ++ scan look (line + newlines front) back := by
  induction front generalizing line with
  | nil => rfl
  | cons s rest ih =>
      rw [List.cons_append, scan, scan, ih, newlines_cons, List.append_assoc, Nat.add_assoc]

variable {look} in
/-- All that is seen is seen of some segment, on a line that the segments come to. -/
theorem exists_of_mem_scan {line : Nat} {segments : List Segment} {a : α}
    (h : a ∈ scan look line segments) :
    ∃ s ∈ segments, ∃ place, line ≤ place ∧ place ≤ line + newlines segments ∧
      look place s = some a := by
  induction segments generalizing line with
  | nil => cases h
  | cons s rest ih =>
      rw [scan, List.mem_append, Option.mem_toList] at h
      rw [newlines_cons]
      obtain here | more := h
      · exact ⟨s, List.mem_cons_self, _, Nat.le_add_right _ _, by omega, here⟩
      · obtain ⟨s', hs, place, low, high, seen⟩ := ih more
        exact ⟨s', List.mem_cons_of_mem s hs, place, by omega, by omega, seen⟩

/-- What is seen further down is what is seen higher up, moved down. -/
theorem scan_below {down : α → α} {lines : Nat}
    (h : ∀ line s, look (line + lines) s = (look line s).map down) (line : Nat)
    (segments : List Segment) :
    scan look (line + lines) segments = (scan look line segments).map down := by
  induction segments generalizing line with
  | nil => rfl
  | cons s rest ih =>
      rw [scan, scan, Nat.add_right_comm, h, ih, List.map_append, Option.toList_map]

end

theorem scan_tokens_below (lines line : Nat) (segments : List Segment) :
    scan Segment.token? (line + lines) segments =
      (scan Segment.token? line segments).map (Token.relabel (.below lines)) := by
  refine scan_below _ (fun place s => ?_) line segments
  cases s with
  | token kind text =>
      rw [Segment.token?, Segment.token?, Option.map_some, Relabeling.below, Token.relabel_ofLines]
  | _ => rfl

theorem scan_errors_below (lines line : Nat) (segments : List Segment) :
    scan Segment.error? (line + lines) segments =
      (scan Segment.error? line segments).map (LexicalError.relabel (.below lines)) :=
  scan_below _ (fun _ s => by cases s <;> rfl) line segments

theorem foldl_next (p : Progress) (segments : List Segment) :
    segments.foldl Progress.next p =
      ⟨p.line + newlines segments, (scan Segment.token? p.line segments).reverse ++ p.tokens,
        (scan Segment.error? p.line segments).reverse ++ p.errors⟩ := by
  induction segments generalizing p with
  | nil => rfl
  | cons s rest ih =>
      rw [List.foldl_cons, ih, newlines_cons, scan, scan]
      cases s <;> simp [Progress.next, Segment.token?, Segment.error?, tokenOf_eq, Nat.add_assoc]

/-- The tokens of a text are those of its segments and then the end mark; its errors are those of
its segments. -/
theorem read_eq (text : String) :
    read text = ⟨scan Segment.token? 1 (segments text.toList) ++
        [eofAt (1 + text.toList.count '\n')],
      scan Segment.error? 1 (segments text.toList)⟩ := by
  rw [read, readSegments, foldl_next, newlines_segments]
  simp [Progress.finish]

end Lexical
end Lox
