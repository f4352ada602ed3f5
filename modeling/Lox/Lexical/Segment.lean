import Lox.Token.Kind

/-!
A program text as a sequence of segments: the texts of tokens, and what stands between them. The
segments of a text, joined, are the text.
-/

namespace Lox

/-- A piece of program text. -/
inductive Segment
  | token (kind : Kind) (text : List Char)
  | blanks (text : List Char)
  | newline
  | comment (text : List Char)
  /-- A character that begins no token. -/
  | stray (c : Char)
  /-- A string that is still open where the program text ends. -/
  | openString (text : List Char)
  deriving DecidableEq, Repr, Inhabited

namespace Segment

def text : Segment → List Char
  | token _ text | blanks text | comment text | openString text => text
  | newline => ['\n']
  | stray c => [c]

end Segment

namespace Lexical

def isBlank (c : Char) : Bool := c == ' ' || c == '\t' || c == '\r'

def isWordStart (c : Char) : Bool := c.isAlpha || c == '_'

def isWordPart (c : Char) : Bool := c.isAlphanum || c == '_'

/-- The marks that stand alone as tokens. -/
def mark? : Char → Option Kind
  | '(' => some .leftParen
  | ')' => some .rightParen
  | '{' => some .leftBrace
  | '}' => some .rightBrace
  | ',' => some .comma
  | '.' => some .dot
  | '-' => some .minus
  | '+' => some .plus
  | ';' => some .semicolon
  | '/' => some .slash
  | '*' => some .star
  | '!' => some .bang
  | '=' => some .equal
  | '>' => some .greater
  | '<' => some .less
  | _ => none

/-- The marks that make another token with an equals sign after them. -/
def markWithEqual? : Char → Option Kind
  | '!' => some .bangEqual
  | '=' => some .equalEqual
  | '>' => some .greaterEqual
  | '<' => some .lessEqual
  | _ => none

/-- What follows the first `*/` of a text; nothing if there is none. -/
def afterClose : List Char → List Char
  | '*' :: '/' :: rest => rest
  | _ :: rest => afterClose rest
  | [] => []

/-- A string, from its opening quote on: up to the next quote, or all of the text. -/
def stringSegment (rest : List Char) : Segment × List Char :=
  let contents := rest.takeWhile (· != '"')
  match rest.dropWhile (· != '"') with
  | [] => (.openString ('"' :: contents), [])
  | quote :: after => (.token .string ('"' :: contents ++ [quote]), after)

/-- A number: digits, and a point with more digits if a digit follows the point. -/
def numberSegment (first : Char) (rest : List Char) : Segment × List Char :=
  let whole := first :: rest.takeWhile Char.isDigit
  match rest.dropWhile Char.isDigit with
  | '.' :: d :: after =>
      if d.isDigit then
        (.token .number (whole ++ '.' :: d :: after.takeWhile Char.isDigit),
          after.dropWhile Char.isDigit)
      else (.token .number whole, '.' :: d :: after)
  | after => (.token .number whole, after)

/-- A word: a reserved one or a name. -/
def wordSegment (first : Char) (rest : List Char) : Segment × List Char :=
  let word := first :: rest.takeWhile isWordPart
  (.token (Kind.ofWord (String.ofList word)) word, rest.dropWhile isWordPart)

/-- A mark, together with an equals sign where the two make one token. -/
def markSegment (first : Char) (rest : List Char) : Segment × List Char :=
  match markWithEqual? first, rest with
  | some kind, '=' :: after => (.token kind [first, '='], after)
  | _, _ =>
      match mark? first with
      | some kind => (.token kind [first], rest)
      | none => (.stray first, rest)

/-- What a slash begins: a comment to the end of the line, a comment to the next `*/` or to the end
of the text, or a division. -/
def slashSegment (rest : List Char) : Segment × List Char :=
  match rest with
  | '/' :: after =>
      (.comment ('/' :: '/' :: after.takeWhile (· != '\n')), after.dropWhile (· != '\n'))
  | '*' :: after =>
      let rest := afterClose after
      (.comment ('/' :: '*' :: after.take (after.length - rest.length)), rest)
  | _ => (.token .slash ['/'], rest)

/-- The first segment of a text that is not empty, and what follows it. -/
def first (c : Char) (rest : List Char) : Segment × List Char :=
  if isBlank c then (.blanks (c :: rest.takeWhile isBlank), rest.dropWhile isBlank)
  else if c == '\n' then (.newline, rest)
  else if c == '"' then stringSegment rest
  else if c == '/' then slashSegment rest
  else if c.isDigit then numberSegment c rest
  else if isWordStart c then wordSegment c rest
  else markSegment c rest

/-- The segments of a text of at most `n` characters, after those already found, latest first. -/
def segmentsWithin : Nat → List Segment → List Char → List Segment
  | 0, found, _ | _ + 1, found, [] => found.reverse
  | n + 1, found, c :: rest =>
      let (segment, rest) := first c rest
      segmentsWithin n (segment :: found) rest

/-- The segments of a text. -/
def segments (text : List Char) : List Segment := segmentsWithin text.length [] text

end Lexical
end Lox
