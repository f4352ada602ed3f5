import Lox.Diagnostic.Color
import Lox.Diagnostic.Manual
import Lox.Prompt

/-!
The command line: what its arguments ask for, and what is answered.
-/

namespace Lox

/-- What can be asked for. -/
inductive Command
  | prompt
  | help
  | version
  | run (path : String)
  | listTokens (path : String)
  | listTree (path : String)
  | explain (code : String)
  /-- A command without the argument that it needs. -/
  | incomplete
  /-- More arguments than any command takes. -/
  | excessive
  deriving DecidableEq, Repr, Inhabited

/-- Why a file cannot be read as text. -/
inductive FileProblem
  | notFound
  | noPermission
  | notText
  | other (reason : String)
  deriving DecidableEq, Repr, Inhabited

/-- What a process writes, and the code that it ends with. -/
structure Answer where
  exitCode : Nat := 0
  output : String := ""
  errors : String := ""
  deriving DecidableEq, Repr, Inhabited

namespace Command

def ofArguments : List String → Command
  | [] => prompt
  | ["help"] | ["--help"] | ["-h"] => help
  | ["version"] | ["--version"] | ["-V"] => version
  | ["run", path] => run path
  | ["lex", path] => listTokens path
  | ["parse", path] => listTree path
  | ["explain", code] | ["--explain", code] => explain code
  | ["run"] | ["lex"] | ["parse"] | ["explain"] | ["--explain"] => incomplete
  | [path] => run path
  | _ => excessive

/-- The file that a command reads. -/
def path? : Command → Option String
  | run path | listTokens path | listTree path => some path
  | _ => none

end Command

def FileProblem.message (path : String) : FileProblem → String
  | notFound => "cannot find file '" ++ path ++ "'"
  | noPermission => "permission denied reading '" ++ path ++ "'"
  | notText => "'" ++ path ++ "' contains invalid UTF-8 data"
  | other reason => "error reading '" ++ path ++ "': " ++ reason

namespace Answer

def usageCode : Nat := 64

def readingCode : Nat := 74

def versionText : String := "lox 0.1.0\n"

def briefUsage : String := "Usage: lox [script]\n"

def usage : String :=
  "Lox interpreter\n" ++
  "\n" ++
  "Usage: lox [script]\n" ++
  "\n" ++
  "Commands:\n" ++
  "  <script>             Run a Lox script\n" ++
  "  run <script>         Run a Lox script\n" ++
  "  lex <script>         Print the token stream\n" ++
  "  parse <script>       Print the syntax tree\n" ++
  "  explain <code>       Explain an error code (e.g., E1001)\n" ++
  "  help                 Show this help message\n" ++
  "  version              Show version information\n" ++
  "\n" ++
  "With no arguments, starts an interactive prompt.\n" ++
  "\n" ++
  "Environment:\n" ++
  "  LOX_LOG=<filter>     Enable logging (e.g., debug, lox_parse=trace)\n" ++
  "  LOX_COLOR=<mode>     Diagnostic color: auto, always, never\n" ++
  "  NO_COLOR=1           Disable colored diagnostics\n"

/-- The answer when a file cannot be read. -/
def ofFileProblem (path : String) (p : FileProblem) : Answer :=
  { exitCode := readingCode, errors := p.message path ++ "\n" }

/-- The answer when the input of the prompt is not text. -/
def inputProblem : String := "error reading input: " ++ Prompt.notText ++ "\n"

def ofTranscript (colors : Bool) (t : Prompt.Transcript) : Answer :=
  let reports := Diagnostic.renderAll t.diagnostics colors
  if t.readAll then { output := t.printed, errors := reports }
  else { exitCode := readingCode, output := t.printed, errors := reports ++ inputProblem }

def ofReport (colors : Bool) (r : Report) : Answer where
  exitCode := r.outcome.exitCode
  output := r.printed
  errors := Diagnostic.renderAll r.diagnostics colors

/-- The answer that shows a listing, and reports what is wrong with the script. -/
def ofListing (colors : Bool) (listing : String) (diagnostics : List Diagnostic) : Answer where
  exitCode := Outcome.exitCode { syntaxError := !diagnostics.isEmpty }
  output := listing
  errors := Diagnostic.renderAll diagnostics colors

def ofExplanation : Except String String → Answer
  | .ok page => { output := page ++ "\n" }
  | .error message =>
      { exitCode := usageCode
        errors := message ++ "\n\nCodes have the format EXXXX where X is a digit.\n" ++
          "Examples: E0001, E1001, E6003\n" }

end Answer

/-- What a command finds around it: its files, its input, and whether its reports are coloured. -/
structure Surroundings where
  file : String → Except FileProblem ByteArray
  input : ByteArray
  colors : Bool

namespace Surroundings

/-- A file as text. -/
def textFile (w : Surroundings) (path : String) : Except FileProblem String :=
  match w.file path with
  | .error p => .error p
  | .ok bytes =>
      match String.fromUTF8? bytes with
      | some text => .ok text
      | none => .error .notText

end Surroundings

namespace Command

/-- The answer to a command; none if a run is cut off. -/
def answer (limit : Nat) (w : Surroundings) : Command → Option Answer
  | prompt => (Prompt.run limit w.input.toList .empty).map fun (t, _) => .ofTranscript w.colors t
  | help => some { output := Answer.usage }
  | version => some { output := Answer.versionText }
  | explain code => some (.ofExplanation (Code.explain code))
  | incomplete => some { exitCode := Answer.usageCode, output := Answer.usage }
  | excessive => some { exitCode := Answer.usageCode, output := Answer.briefUsage }
  | run path =>
      match w.textFile path with
      | .error p => some (.ofFileProblem path p)
      | .ok text => (Session.empty.run limit text).map fun (r, _) => .ofReport w.colors r
  | listTokens path =>
      match w.textFile path with
      | .error p => some (.ofFileProblem path p)
      | .ok text =>
          let script := Script.ofText text
          some (.ofListing w.colors script.tokenListing script.lexicalDiagnostics)
  | listTree path =>
      match w.textFile path with
      | .error p => some (.ofFileProblem path p)
      | .ok text =>
          let script := Script.ofText text
          some (.ofListing w.colors script.treeListing script.diagnostics)

end Command
end Lox
