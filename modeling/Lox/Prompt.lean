import Lox.Session

/-!
The prompt: lines of input, each run as a script of its own in one session.
-/

namespace Lox
namespace Prompt

/-- What is printed before a line is read. -/
def mark : String := "> "

/-- What is said of input that is not text. -/
def notText : String := "stream did not contain valid UTF-8"

/-- The bytes of an input in lines. A line holds the newline that ends it; bytes after the last
newline are a line too. -/
def lines (input : List UInt8) : List (List UInt8) :=
  match input with
  | [] => []
  | b :: rest =>
      if b = 10 then [b] :: lines rest
      else
        match lines rest with
        | [] => [[b]]
        | line :: more => (b :: line) :: more

/-- A line as text, without the newlines and carriage returns at its end; none if its bytes are not
text. -/
def text? (line : List UInt8) : Option String :=
  (String.fromUTF8? ⟨line.toArray⟩).map fun text =>
    String.ofList (text.toList.reverse.dropWhile fun c => c == '\n' || c == '\r').reverse

/-- What a prompt showed, and whether it read all of its input. -/
structure Transcript where
  printed : String := ""
  diagnostics : List Diagnostic := []
  readAll : Bool := true
  deriving DecidableEq, Repr, Inhabited

namespace Transcript

/-- A transcript with the prompt mark after it. -/
def marked (t : Transcript) : Transcript := { t with printed := t.printed ++ mark }

/-- A transcript with a report after it. -/
def add (t : Transcript) (r : Report) : Transcript :=
  { t with printed := t.printed ++ r.printed, diagnostics := t.diagnostics ++ r.diagnostics }

end Transcript

/-- Runs lines in order, after what the transcript already shows. The mark is printed before each
line and once more at the end of the input. The first line that is not text ends the input. -/
def runLines (limit : Nat) : List (List UInt8) → Transcript → Session →
    Option (Transcript × Session)
  | [], t, s => some (t.marked, s)
  | line :: rest, t, s =>
      match text? line with
      | none => some ({ t.marked with readAll := false }, s)
      | some text =>
          match s.run limit text with
          | none => none
          | some (report, s) => runLines limit rest (t.marked.add report) s

/-- Runs the lines of an input. -/
def run (limit : Nat) (input : List UInt8) (s : Session) : Option (Transcript × Session) :=
  runLines limit (lines input) {} s

end Prompt
end Lox
