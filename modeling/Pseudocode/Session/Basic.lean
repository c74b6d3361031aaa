import Pseudocode.Run.Machine
import Pseudocode.Tree.Reader

/-!
# Sessions

A session runs program after program on one store. It remembers the programs that it ran, the last
first, and the parts of those that ran to their end. A program equal to the one before it is not
remembered again, and its jumps look for their marks in the older one.
-/

namespace Pseudocode

/-- A session. -/
structure Session where
  store : Store
  /-- The programs run, the last first. -/
  context : List Tree
  /-- The parts of the programs that ran to their end, in order. -/
  history : List Tree
  /-- Some run has captured what it printed. -/
  handBack : Bool

/-- What a run comes to. -/
inductive Outcome where
  | done (r : Result)
  | failed (f : Fault)
  /-- The run was not at its end after the steps it was given. -/
  | unfinished

namespace Session

/-- A session in which nothing was run. -/
def fresh : Session :=
  ⟨.empty, [], [], false⟩

/-- The programs run once another is to be run. -/
def remember (context : List Tree) (program : Tree) : List Tree :=
  match context with
  | [] => [program]
  | last :: rest => if last.same program then last :: rest else program :: last :: rest

/-- What a run results in: the captured text if it was to be captured, else the last result. -/
def resultOf (capture : Bool) (m : Machine) : Result :=
  if capture then .value (.text m.captured) else m.result

/-- Runs a program for at most `fuel` steps. Gives the session after it, what was printed, and what the
run came to. -/
def evaluate (fuel : Nat) (capture : Bool) (program : Tree) (s : Session) : Session × String × Outcome :=
  let context := remember s.context program
  let handBack := s.handBack || capture
  let env : Setting := ⟨context.headD program, handBack⟩
  let (m, ending) := (Machine.load program s.store).run env fuel
  let outcome := match ending with
    | .finished => .done (resultOf capture m)
    | .failed f => .failed f
    | .unfinished => .unfinished
  ({ s with store := m.store, context, handBack }, m.output, outcome)

/-- The line that shows a result, if there is one to show. -/
def resultLine : Result → Except Fault String
  | .value .none => .ok ""
  | .value t => t.show?.map (· ++ "\n")
  | .returned _ => .ok "<interpreter.ReturnValue object>\n"

/-- The line about a run that failed. -/
def failureLine (f : Fault) : String :=
  "Execution error: " ++ f.message ++ "\n"

/-- Runs a program that was read and shows its result. Gives the session after it, what was printed, and whether
all went well. -/
def carryOut (fuel : Nat) (program : List Tree) (s : Session) : Session × String × Bool :=
  let (s, output, outcome) := s.evaluate fuel false (.list program)
  match outcome with
  | .unfinished => (s, output, false)
  | .failed f => (s, output ++ failureLine f, false)
  | .done r =>
    match resultLine r with
    | .error f => (s, output ++ failureLine f, false)
    | .ok line => ({ s with history := s.history ++ program }, output ++ line, true)

/-- What is printed about a text that cannot be read. -/
def unreadLine (f : ReadFault) : String :=
  f.notice ++ "Syntax error in input\n"

/-- Reads a source text and carries out its program. -/
def process (fuel : Nat) (source : String) (s : Session) : Session × String × Bool :=
  match readProgram source with
  | .error f => (s, unreadLine f, false)
  | .ok program => s.carryOut fuel program

/-- Forgets all variables and programs. -/
def clear (s : Session) : Session :=
  { s with store := .empty, context := [], history := [] }

end Session

end Pseudocode
