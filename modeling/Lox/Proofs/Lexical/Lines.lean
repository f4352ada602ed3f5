import Lox.Proofs.Lexical.Seam
import Lox.Proofs.Lexical.Tokens
import Lox.Proofs.Names

/-!
Texts read with a table of names, in which every token gets numbers for its names as it is read.
Whatever the table has been given before, a text whose last piece has come to its end, a newline and
another text are read as the two texts one after the other: the same tokens with the same numbers,
the same errors and the same table, but for the lines of the second text.
-/

namespace Lox

namespace NameTable

/-- Registers names in their order: the number of each, and the table with all of them. -/
def number : List String → NameTable → List Name × NameTable
  | [], t => ([], t)
  | x :: rest, t =>
      let (n, t) := t.insert x
      let (more, t) := number rest t
      (n :: more, t)

def numberTokens : List Token → NameTable → List (Token × List Name) × NameTable
  | [], t => ([], t)
  | token :: rest, t =>
      let (numbers, t) := number token.names t
      let (more, t) := numberTokens rest t
      ((token, numbers) :: more, t)

theorem number_table (names : List String) (t : NameTable) :
    (number names t).2 = names.foldl (fun t x => (t.insert x).2) t := by
  induction names generalizing t with
  | nil => rfl
  | cons x rest ih => exact ih (t.insert x).2

theorem numberTokens_cons (token : Token) (rest : List Token) (t : NameTable) :
    numberTokens (token :: rest) t =
      ((token, (number token.names t).1) :: (numberTokens rest (number token.names t).2).1,
        (numberTokens rest (number token.names t).2).2) := rfl

theorem numberTokens_table (tokens : List Token) (t : NameTable) :
    (numberTokens tokens t).2 = t.insertTokens tokens := by
  induction tokens generalizing t with
  | nil => rfl
  | cons token rest ih =>
      rw [numberTokens_cons, ih, number_table, insertTokens, insertTokens, List.flatMap_cons,
        List.foldl_append]

theorem numberTokens_append (front back : List Token) (t : NameTable) :
    numberTokens (front ++ back) t =
      ((numberTokens front t).1 ++ (numberTokens back (t.insertTokens front)).1,
        (numberTokens back (t.insertTokens front)).2) := by
  rw [← numberTokens_table]
  induction front generalizing t with
  | nil => rfl
  | cons token rest ih => rw [List.cons_append, numberTokens_cons, ih, numberTokens_cons]; rfl

/-- Tokens get the same numbers on whatever lines they are. -/
theorem numberTokens_below (lines : Nat) (tokens : List Token) (t : NameTable) :
    numberTokens (tokens.map (Token.relabel (.below lines))) t =
      ((numberTokens tokens t).1.map fun p => (p.1.relabel (.below lines), p.2),
        (numberTokens tokens t).2) := by
  induction tokens generalizing t with
  | nil => rfl
  | cons token rest ih =>
      have names : (token.relabel (.below lines)).names = token.names := token.names_ofLines _
      rw [List.map_cons, numberTokens_cons, names, ih, numberTokens_cons]
      rfl

/-- The empty name is known to every table that a new one can become. -/
theorem find?_number_empty (before : List String) :
    (number before .empty).2.find? "" = some .empty := by
  have new : NameTable.empty.find? "" = some .empty := by decide +kernel
  rw [number_table]
  exact find?_foldl before new

end NameTable

namespace Lexical

structure NumberedReading where
  tokens : List (Token × List Name)
  errors : List LexicalError
  table : NameTable

def readInto (t : NameTable) (text : String) : NumberedReading :=
  let reading := read text
  let (tokens, table) := t.numberTokens reading.tokens
  ⟨tokens, reading.errors, table⟩

theorem readInto_eq (t : NameTable) (text : String) :
    readInto t text = ⟨(t.numberTokens (read text).tokens).1, (read text).errors,
      t.insertTokens (read text).tokens⟩ := by
  rw [← NameTable.numberTokens_table]
  rfl

/-- A text whose last segment has come to its end, a newline and another text, read with any table
that a new one can become. -/
theorem readInto_joined (before : List String) {text : String}
    (closed : ∀ s ∈ (segments text.toList).getLast?, s.Closed) (back : String) :
    let table := (NameTable.number before .empty).2
    let first := readInto table text
    let second := readInto first.table back
    let down := Relabeling.below (text.toList.count '\n' + 1)
    readInto table (text ++ "\n" ++ back) =
      ⟨first.tokens.dropLast ++ second.tokens.map fun p => (p.1.relabel down, p.2),
        first.errors ++ second.errors.map (LexicalError.relabel down), second.table⟩ := by
  intro table first second down
  obtain ⟨front, line, tokens, -⟩ := read_tokens text
  have joined := read_append (closed_of_last closed) back
  rw [tokens, List.dropLast_concat] at joined
  -- The end mark of the first text is not among the tokens of the whole, but it registers nothing.
  have known : (table.insertTokens front).find? "" = some .empty :=
    NameTable.find?_insertTokens front (NameTable.find?_number_empty before)
  have after : first.table = table.insertTokens front := by
    simp only [first, readInto_eq]
    rw [tokens, NameTable.insertTokens_append, NameTable.insertTokens_eofAt known]
  have kept : first.tokens.dropLast = (table.numberTokens front).1 := by
    simp only [first, readInto_eq]
    rw [tokens, NameTable.numberTokens_append, NameTable.numberTokens_cons]
    exact List.dropLast_concat
  have next : second = readInto (table.insertTokens front) back := congrArg (readInto · back) after
  rw [kept, next, readInto_eq, readInto_eq, joined, NameTable.numberTokens_append,
    NameTable.numberTokens_below, NameTable.insertTokens_append, NameTable.insertTokens_below]
  rfl

theorem readInto_joined_point :
    let text := "@\"a\nb\"12."
    let back := "5/\"b\" \"c"
    let table := (NameTable.number ["b"] .empty).2
    (∀ s ∈ (segments text.toList).getLast?, s.Closed) ∧
      (readInto table (text ++ "\n" ++ back)).tokens.map (fun p => (p.1.kind, p.1.line, p.2)) =
        [(.string, 2, [⟨2⟩, ⟨3⟩]), (.number, 2, [⟨4⟩]), (.dot, 2, [⟨5⟩]), (.number, 3, [⟨6⟩]),
          (.slash, 3, [⟨7⟩]), (.string, 3, [⟨8⟩, ⟨1⟩]), (.eof, 3, [⟨0⟩])] ∧
      (readInto table (text ++ "\n" ++ back)).errors =
        [⟨.unexpectedCharacter '@', 1⟩, ⟨.unterminatedString, 3⟩] := by
  intro text back table
  have last : (segments text.toList).getLast? = some (.token .dot ['.']) := by decide +kernel
  have closed : ∀ s ∈ (segments text.toList).getLast?, s.Closed := by
    rw [last]
    rintro s ⟨⟩
    trivial
  have joined := readInto_joined ["b"] closed back
  refine ⟨closed, ?_, ?_⟩
  · rw [joined]
    decide +kernel
  · rw [joined]
    decide +kernel

end Lexical
end Lox
