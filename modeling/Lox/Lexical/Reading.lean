import Lox.Diagnostic.Basic
import Lox.Lexical.Segment
import Lox.Token.Basic

/-!
Reading a program text as tokens. Every token and every error is on the line on which its text ends;
the list of tokens ends with the line on which the whole text ends.
-/

namespace Lox

/-- What can be wrong in a text. -/
inductive LexicalProblem
  | unexpectedCharacter (c : Char)
  | unterminatedString
  deriving DecidableEq, Repr, Inhabited

structure LexicalError where
  problem : LexicalProblem
  line : Nat
  deriving DecidableEq, Repr, Inhabited

namespace LexicalProblem

def code : LexicalProblem → Code
  | unexpectedCharacter _ => .unexpectedCharacter
  | unterminatedString => .unterminatedString

def message : LexicalProblem → String
  | unexpectedCharacter _ => "Unexpected character."
  | unterminatedString => "Unterminated String."

end LexicalProblem

def LexicalError.diagnostic (e : LexicalError) : Diagnostic where
  code := e.problem.code
  line := e.line
  message := e.problem.message

/-- The tokens of a text and the errors in it. -/
structure Reading where
  tokens : List Token
  errors : List LexicalError
  deriving DecidableEq, Repr, Inhabited

namespace Lexical

/-- The text between the quotes of a string. -/
def contents (text : List Char) : String := String.ofList (text.tail.dropLast)

/-- The token with a given text that ends on a given line. -/
def tokenOf (kind : Kind) (text : List Char) (line : Nat) : Token where
  kind := kind
  lexeme := String.ofList text
  literal :=
    match kind with
    | .number => some (.number (numeralValue text))
    | .string => some (.string (contents text))
    | _ => none
  line := line

def eofAt (line : Nat) : Token where
  kind := .eof
  lexeme := ""
  line := line

/-- A reading in progress: the line reached, and the tokens and errors so far, latest first. -/
structure Progress where
  line : Nat
  tokens : List Token
  errors : List LexicalError
  deriving DecidableEq, Repr, Inhabited

namespace Progress

/-- Reads one more segment. -/
def next (p : Progress) (segment : Segment) : Progress :=
  let line := p.line + segment.text.count '\n'
  match segment with
  | .token kind text => ⟨line, tokenOf kind text line :: p.tokens, p.errors⟩
  | .stray c => ⟨line, p.tokens, ⟨.unexpectedCharacter c, line⟩ :: p.errors⟩
  | .openString _ => ⟨line, p.tokens, ⟨.unterminatedString, line⟩ :: p.errors⟩
  | .blanks _ | .newline | .comment _ => ⟨line, p.tokens, p.errors⟩

/-- The reading when all segments have been read. -/
def finish (p : Progress) : Reading :=
  ⟨(eofAt p.line :: p.tokens).reverse, p.errors.reverse⟩

end Progress

/-- The reading of segments whose first one begins on a given line. -/
def readSegments (line : Nat) (segments : List Segment) : Reading :=
  (segments.foldl Progress.next ⟨line, [], []⟩).finish

/-- The reading of a program text. -/
def read (text : String) : Reading := readSegments 1 (segments text.toList)

end Lexical
end Lox
