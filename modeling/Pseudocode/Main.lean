import Pseudocode.Session.Console

/-!
# The command line

Reads the file or the keyboard and prints what the console answers.
-/

namespace Pseudocode

/-- More steps than any run takes in a lifetime. -/
def manySteps : Nat :=
  1000000000000000000

/-- Prints at once. -/
def say (s : String) : IO Unit := do
  let out ← IO.getStdout
  out.putStr s
  out.flush

/-- Reads lines and answers them until the console is left. -/
partial def converse (c : Console) : IO Unit := do
  say c.prompt
  let line ← (← IO.getStdin).getLine
  let event : Event :=
    if line.isEmpty then .ended
    else .line (if line.endsWith "\n" then (line.dropEnd 1).toString else line)
  let r := c.react manySteps event
  say r.output
  unless r.left do converse r.console

/-- Reads a file. -/
def readSource (name : String) : IO (Except FileFault String) := do
  try
    return .ok (← IO.FS.readFile name)
  catch e =>
    match e with
    | .noFileOrDirectory .. => return .error .missing
    | .inappropriateType .. => return .error .directory
    | e => return .error (.other (toString e))

end Pseudocode

open Pseudocode in
/-- The program. -/
def main (args : List String) : IO Unit := do
  match Invocation.ofArguments args with
  | .console welcome =>
    if welcome then say Console.welcome
    converse (Console.on .fresh)
  | .file name console =>
    match ← readSource name with
    | .error f => say (Invocation.faultLine name f)
    | .ok content =>
      let (s, output) := Invocation.runFile manySteps content console
      say output
      if console then converse (Console.on s)
