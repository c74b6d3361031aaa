import Pseudocode.Run.Eval
import Pseudocode.Tree.Path
import Pseudocode.Tree.Text

/-!
# Running programs

A machine keeps the statements still to be done in a queue and does the first of them, over and over. A
conditional statement puts the part that is chosen in front of the queue. A jump throws the queue away
and starts anew behind its mark.

A run can capture what it prints. It then ends with the captured text in place of its last result. Once
some run has captured, `print` with a value goes on to hand its text back instead of printing it, while
an empty `print` always does both.
-/

namespace Pseudocode

/-- What a statement, or a whole program, results in. -/
inductive Result where
  | value (t : Tree)
  /-- The value that a `return` ended the program with. -/
  | returned (t : Tree)

/-- What stays the same during a run. -/
structure Setting where
  /-- The program in which marks are looked for. -/
  home : Tree
  /-- Whether printed values are handed back instead of being printed. -/
  handBack : Bool

/-- A machine. -/
structure Machine where
  queue : List Tree
  store : Store
  /-- What was printed. -/
  output : String
  /-- What was handed back as text. -/
  captured : String
  result : Result

/-- The effect of a statement that can be done: its result, and the machine behind it. -/
abbrev Effect := Except Fault (Result × Machine)

namespace Machine

/-- A machine that is about to run a program. -/
def load (program : Tree) (σ : Store) : Machine where
  queue := match program with
    | .list items => items
    | t => [t]
  store := σ
  output := ""
  captured := ""
  result := .value .none

/-- No result. -/
def nothing : Result :=
  .value .none

/-- Puts a statement, or all the statements of a list, in front of the queue. -/
def queueFirst (m : Machine) : Tree → Machine
  | .list items => { m with queue := items ++ m.queue }
  | t => { m with queue := t :: m.queue }

/-- The items of a tree that is a list. -/
def items? : Tree → Option (List Tree)
  | .list items => some items
  | _ => none

/-- Goes on behind a mark: the queue becomes what follows the mark in its list. -/
def jump (home : Tree) (label : Tree) (m : Machine) : Effect :=
  match Tree.findMark label home with
  | none | some [] => do .error (.markMissing (← label.show?))
  | some path => do
    match items? (← home.at? path.dropLast), path.getLast? with
    | some items, some (.index i) => return (nothing, { m with queue := items.drop (i.toNat + 1) })
    | _, _ => .error .markAlone

/-- Does a statement. -/
def perform (env : Setting) (m : Machine) : Tree → Effect
  | .assign x e => do
    let v ← e.eval m.store
    return (nothing, { m with store := m.store.set x v })
  | .when test body => do
    if ← test.test m.store then return (nothing, m.queueFirst body) else return (nothing, m)
  | .choose test body other => do
    if ← test.test m.store then return (nothing, m.queueFirst body)
    else if other.isSomething then return (nothing, m.queueFirst other)
    else return (nothing, m)
  | .give e => do
    let v ← e.eval m.store
    return (.returned v, m)
  | .print .none => return (.value (.text "\n"), { m with output := m.output ++ "\n" })
  | .print e => do
    let s ← (← e.eval m.store).show?
    if env.handBack then return (.value (.text (s ++ "\n")), m)
    else return (nothing, { m with output := m.output ++ s ++ "\n" })
  | .jump label => m.jump env.home label
  | .mark _ => return (nothing, m)
  | .list items => return (nothing, m.queueFirst (.list items))
  | .float _ | .nan _ => return (nothing, m)
  | .none => return (nothing, m)
  | e => do
    let v ← e.eval m.store
    return (.value v, m)

/-- A machine that has put down the result of a statement. Texts are captured, and so is the text of a
value that the program returns, which also ends it. -/
def note (r : Result) (m : Machine) : Except Fault Machine :=
  match r with
  | .returned v => do
    let s ← v.show?
    return { m with queue := [], captured := m.captured ++ s, result := r }
  | .value (.text s) => return { m with captured := m.captured ++ s, result := r }
  | .value _ => return { m with result := r }

/-- What one step of a machine comes to. -/
inductive Stepped where
  | running (m : Machine)
  | finished
  | failed (f : Fault)

/-- Does the first statement of the queue. -/
def step (env : Setting) (m : Machine) : Stepped :=
  match m.queue with
  | [] => .finished
  | s :: rest =>
    match ({ m with queue := rest } : Machine).perform env s >>= fun (r, m) => m.note r with
    | .ok m => .running m
    | .error f => .failed f

/-- How a run stands: finished, failed, or not at its end after the steps it was given. -/
inductive Ending where
  | finished
  | failed (f : Fault)
  | unfinished

/-- Runs a machine for at most `n` steps. -/
def run (env : Setting) : Nat → Machine → Machine × Ending
  | 0, m => (m, if m.queue.isEmpty then .finished else .unfinished)
  | n + 1, m =>
    match m.step env with
    | .running m => run env n m
    | .finished => (m, .finished)
    | .failed f => (m, .failed f)

end Machine

end Pseudocode
