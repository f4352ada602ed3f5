import Lox.Lexical.Reading
import Lox.Phrase.Program
import Lox.Text.Quoted
import Lox.Tree.Text

/-!
A program text together with what it was read as, and the two listings that show it.
-/

namespace Lox

structure Script where
  reading : Reading
  program : Program
  deriving Repr, Inhabited

namespace Script

def ofText (text : String) : Script :=
  let reading := Lexical.read text
  ⟨reading, .ofTokens reading.tokens⟩

def statements (s : Script) : List Stmt := s.program.statements

def lexicalDiagnostics (s : Script) : List Diagnostic :=
  s.reading.errors.map LexicalError.diagnostic

/-- All that is wrong with a script: the errors in its text, then the faults of its statements. -/
def diagnostics (s : Script) : List Diagnostic := s.lexicalDiagnostics ++ s.program.diagnostics

end Script

/-- A text with spaces in front of it, up to a width. -/
def padLeft (width : Nat) (text : String) : String :=
  String.ofList (List.replicate (width - text.length) ' ') ++ text

/-- A text with spaces after it, up to a width. -/
def padRight (width : Nat) (text : String) : String :=
  text ++ String.ofList (List.replicate (width - text.length) ' ')

/-- A token on a line of a listing: its line, kind and text, and the number or string it denotes. -/
def Token.listed (t : Token) : String :=
  padLeft 4 (toString t.line) ++ " " ++ padRight 12 t.kind.name ++ " " ++ t.lexeme ++
    match t.literal with
    | some (.number x) => " " ++ NumberStyle.inListing.render x
    | some (.string s) => " " ++ Text.quoted s
    | _ => ""

namespace Script

/-- The tokens of a script, each on a line of its own. -/
def tokenListing (s : Script) : String :=
  String.join (s.reading.tokens.map fun t => t.listed ++ "\n")

/-- The statements of a script, each on a line of its own. -/
def treeListing (s : Script) : String := programText s.statements

end Script
end Lox
