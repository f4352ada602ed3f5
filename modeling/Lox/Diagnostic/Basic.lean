import Lox.Diagnostic.Code

/-!
Diagnostics and the one line of text that each is reported by, plain or in colour.
-/

namespace Lox

/-- Where on its line an error was found. -/
inductive Location
  | unspecified
  | atEnd
  | lexeme (text : String)
  deriving DecidableEq, Repr, Inhabited

def Location.text : Location → String
  | unspecified => ""
  | atEnd => " at end"
  | lexeme text => " at '" ++ text ++ "'"

structure Diagnostic where
  code : Code
  line : Nat
  location : Location := .unspecified
  message : String
  deriving DecidableEq, Repr, Inhabited

/-- Weights and colours of terminal text. -/
inductive Paint
  | bold
  | boldRed
  deriving DecidableEq, Repr

/-- A text in a paint, if paint is wanted. -/
def Paint.apply (paint : Paint) (wanted : Bool) (text : String) : String :=
  if wanted then
    (match paint with
      | bold => "\x1b[1m"
      | boldRed => "\x1b[1;31m") ++ text ++ "\x1b[0m"
  else text

namespace Diagnostic

/-- Errors of a run are reported without the word `Error` and without a location. -/
def isRunning (d : Diagnostic) : Bool := d.code.phase == .running

/-- The report of a diagnostic, without the end of the line. -/
def render (d : Diagnostic) (colors : Bool) : String :=
  let header := Paint.bold.apply colors ("[line " ++ toString d.line ++ "]")
  if d.isRunning then header ++ ": " ++ Paint.boldRed.apply colors d.message
  else header ++ " " ++ Paint.boldRed.apply colors "Error" ++ d.location.text ++ ": " ++ d.message

/-- The report in plain text. -/
def text (d : Diagnostic) : String := d.render false

/-- The reports of diagnostics in their order, each on a line of its own. -/
def renderAll (ds : List Diagnostic) (colors : Bool) : String :=
  String.join (ds.map fun d => d.render colors ++ "\n")

end Diagnostic
end Lox
