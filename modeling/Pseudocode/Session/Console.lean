import Pseudocode.Session.Basic
import Pseudocode.Text.Blank

/-!
# The console

The console reads lines and runs them. A line is run at once, and kept; a blank line runs again, as one
text, all lines kept since the last blank one. From a line with `then` on, lines are only kept, so that a
conditional statement can go over many of them. `exit`, `clear` and `history` are commands.
-/

namespace Pseudocode

/-- What comes from the keyboard. -/
inductive Event where
  | line (s : String)
  | interrupt
  | ended

/-- A console. -/
structure Console where
  session : Session
  /-- The lines kept, in order. -/
  kept : List String
  /-- A line with `then` was kept, and no blank line since. -/
  conditional : Bool

/-- A console after an event, what was printed, and whether it was left. -/
structure Reaction where
  console : Console
  output : String
  left : Bool

namespace Console

/-- A console on a session. -/
def on (s : Session) : Console :=
  ⟨s, [], false⟩

/-- What is printed when the console is opened. -/
def welcome : String :=
  "Welcome to the Banter Interpreter!\n\nType 'exit' to quit.\n" ++
    "Type 'clear' to reset program context.\nType 'history' to view valid command history.\n\n"

/-- What asks for the next line. -/
def prompt (c : Console) : String :=
  if c.conditional then "... " else "--[ "

/-- Runs the lines kept, if there are any, after something was printed. -/
def flush (fuel : Nat) (c : Console) (output : String) : Reaction :=
  if c.kept.isEmpty then ⟨on c.session, output, false⟩
  else
    let (s, more, _) := c.session.process fuel (String.intercalate "\n" c.kept)
    ⟨on s, output ++ more, false⟩

/-- The numbered lines of the history, and the fault of the first entry that cannot be shown. -/
def listing : Nat → List Tree → String × Option Fault
  | _, [] => ("", none)
  | i, t :: rest =>
    match t.show? with
    | .error f => ("", some f)
    | .ok s =>
      let (more, fault) := listing (i + 1) rest
      (toString i ++ "." ++ (if i < 10 then "  " else " ") ++ s ++ "\n" ++ more, fault)

/-- Shows the history and then runs the lines kept; these are dropped if it cannot be shown. -/
def showHistory (fuel : Nat) (c : Console) : Reaction :=
  let (lines, fault) := listing 1 c.session.history
  let output := "\nValid command history:\n" ++ lines
  match fault with
  | some f => ⟨on c.session, output ++ "Error: " ++ f.message ++ "\n", false⟩
  | none => c.flush fuel output

/-- Takes a line that is neither blank nor a command. -/
def enter (fuel : Nat) (c : Console) (line : String) : Reaction :=
  if Text.occursIn "then".toList (Text.trim line).toList then
    ⟨⟨c.session, c.kept ++ [line], true⟩, "", false⟩
  else if c.conditional then ⟨⟨c.session, c.kept ++ [line], true⟩, "", false⟩
  else
    let (s, output, well) := c.session.process fuel line
    if well then ⟨⟨s, c.kept ++ [line], false⟩, output, false⟩
    else ({ c with session := s } : Console).flush fuel output

/-- The console after an event. -/
def react (fuel : Nat) (c : Console) : Event → Reaction
  | .ended => ⟨c, "\n\nExiting Banter.\n", true⟩
  | .interrupt => ⟨on c.session, "\n", false⟩
  | .line s =>
    let word := String.ofList ((Text.trim s).toList.map Char.toLower)
    if word == "exit" then ⟨c, "\nExiting Banter.\n", true⟩
    else if word == "clear" then
      ({ c with session := c.session.clear } : Console).flush fuel "Program context cleared.\n"
    else if word == "history" then c.showHistory fuel
    else if word.isEmpty then
      if c.kept.isEmpty then ⟨c, "", false⟩ else c.flush fuel ""
    else c.enter fuel s

/-- The console after events, prompting before each; the keyboard ends after the last. -/
def play (fuel : Nat) (c : Console) : List Event → Session × String
  | [] =>
    let r := c.react fuel .ended
    (r.console.session, c.prompt ++ r.output)
  | e :: rest =>
    let r := c.react fuel e
    if r.left then (r.console.session, c.prompt ++ r.output)
    else
      let (s, output) := r.console.play fuel rest
      (s, c.prompt ++ r.output ++ output)

end Console

/-- What the command line asks for. -/
inductive Invocation where
  /-- The console, with or without a welcome. -/
  | console (welcome : Bool)
  /-- A file, and the console after it if asked for. -/
  | file (name : String) (stay : Bool)
deriving DecidableEq, Repr

/-- Why a file cannot be read. -/
inductive FileFault where
  | missing
  | directory
  /-- The name goes on behind a file as if that were a directory. -/
  | notDirectory
  | other (reason : String)

namespace Invocation

/-- What the arguments of the command line ask for. `-i` asks for the console; the file is then the
second argument, and the first one otherwise. -/
def ofArguments (args : List String) : Invocation :=
  let stay := args.contains "-i"
  let named := if stay then args[1]? else args[0]?
  match named with
  | none => .console true
  | some name => if name.isEmpty then .console false else .file name stay

/-- The line about a file that cannot be read. -/
def faultLine (name : String) (f : FileFault) : String :=
  "Error loading file: " ++
    (match f with
      | .missing => "[Errno 2] No such file or directory: " ++ Text.quoted name
      | .directory => "[Errno 21] Is a directory: " ++ Text.quoted name
      | .notDirectory => "[Errno 20] Not a directory: " ++ Text.quoted name
      | .other reason => reason) ++ "\n"

/-- A text in which every line end is a single character. -/
def plainLineEnds : List Char → List Char
  | '\r' :: '\n' :: rest => '\n' :: plainLineEnds rest
  | '\r' :: rest => '\n' :: plainLineEnds rest
  | c :: rest => c :: plainLineEnds rest
  | [] => []

/-- Runs a file that was read. Gives the session after it and what was printed. -/
def runFile (fuel : Nat) (content : String) (stay : Bool) : Session × String :=
  let (s, output, _) := Session.fresh.process fuel (String.ofList (plainLineEnds content.toList))
  (s, if stay then output ++ "\n" else output)

/-- Does what an invocation asks for, given how files are read and what comes from the keyboard. Gives
the session at the end, what was printed, and whether the console was left. -/
def perform (fuel : Nat) (read : String → Except FileFault String) (events : List Event) :
    Invocation → Session × String × Bool
  | .console welcome =>
    let (s, output) := (Console.on .fresh).play fuel events
    (s, (if welcome then Console.welcome else "") ++ output, true)
  | .file name stay =>
    match read name with
    | .error f => (.fresh, faultLine name f, false)
    | .ok content =>
      let (s, output) := runFile fuel content stay
      if stay then
        let (s, more) := (Console.on s).play fuel events
        (s, output ++ more, true)
      else (s, output, false)

end Invocation

end Pseudocode
