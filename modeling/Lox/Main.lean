import Lox.CommandLine

/-!
The program: it fetches what a command needs and writes the answer. The prompt answers line by line.
-/

namespace Lox
namespace Shell

/-- The turns that a loop may take; no process lives to reach it. -/
def turnLimit : Nat := 0x4000000000000000

/-- The words and the number of an error of the system. Numbers in the upper half stand for errors that
are counted down from zero. -/
def systemReason (code : UInt32) (details : String) : String :=
  let number := if code.toNat < 0x80000000 then code.toNat else 0x100000000 - code.toNat
  details.capitalize ++ " (os error " ++ toString number ++ ")"

/-- What an error of the system means for the reading of a file. -/
def fileProblem : IO.Error → FileProblem
  | .noFileOrDirectory .. => .notFound
  | .permissionDenied .. => .noPermission
  | .inappropriateType _ code details | .otherError code details =>
      .other (systemReason code details)
  | error => .other (toString error)

def readFile (path : String) : IO (Except FileProblem ByteArray) := do
  try
    return .ok (← IO.FS.readBinFile path)
  catch error =>
    return .error (fileProblem error)

def write (answer : Answer) : IO UInt32 := do
  IO.print answer.output
  (← IO.getStdout).flush
  IO.eprint answer.errors
  return UInt32.ofNat answer.exitCode

/-- The bytes up to the next newline, which is among them, or to the end of the input. -/
partial def readLine (input : IO.FS.Stream) (line : ByteArray) : IO ByteArray := do
  let next ← input.read 1
  let line := line ++ next
  if next.isEmpty || next.data.contains 10 then return line else readLine input line

/-- Runs lines as they come in. -/
partial def serve (colors : Bool) (input : IO.FS.Stream) (session : Session) : IO UInt32 := do
  IO.print Prompt.mark
  (← IO.getStdout).flush
  let line ← readLine input .empty
  if line.isEmpty then return 0
  match Prompt.text? line.toList with
  | none => write { exitCode := Answer.readingCode, errors := Answer.inputProblem }
  | some text =>
      match session.run turnLimit text with
      | none => return 1
      | some (report, session) =>
          let _ ← write (.ofReport colors report)
          serve colors input session

def perform (command : Command) : IO UInt32 := do
  let noColor ← IO.getEnv "NO_COLOR"
  let color ← IO.getEnv "LOX_COLOR"
  let mode := ColorMode.ofVariables fun key =>
    if key = "NO_COLOR" then noColor else if key = "LOX_COLOR" then color else none
  let colors := mode.useColors (← (← IO.getStderr).isTty)
  match command, command.path? with
  | .prompt, _ => serve colors (← IO.getStdin) .empty
  | command, path =>
      let file ←
        match path with
        | some path => readFile path
        | none => pure (.error .notFound)
      match command.answer turnLimit ⟨fun _ => file, .empty, colors⟩ with
      | some answer => write answer
      | none => return 1

end Shell
end Lox

def main (arguments : List String) : IO UInt32 :=
  Lox.Shell.perform (Lox.Command.ofArguments arguments)
