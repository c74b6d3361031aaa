import Pseudocode.Measure.Verdict

/-!
# What the tools print

A round of measuring runs tools of its own and reads what they print. A tool that fails, or prints what
cannot be read, is passed over with a line about why.
-/

namespace Pseudocode.Measure

/-- The tools of a round, in the order in which they are run. -/
inductive Tool where
  | coverage
  | timing
  /-- Lists the files that were changed. -/
  | changes
  | selfCheck
deriving DecidableEq, Repr

namespace Tool

/-- The name of a tool. -/
def name : Tool → String
  | coverage => "cov"
  | timing => "repotime"
  | changes => "git"
  | selfCheck => "semcheck"

end Tool

/-- What came of a tool. -/
inductive ToolRun where
  | finished (code : Int) (output errors : String)
  /-- The tool could not be run. -/
  | failed (e : Raised)

/-- What a tool printed, or why it could not be run. -/
def ToolRun.output : ToolRun → Except Raised String
  | finished _ s _ => .ok s
  | failed e => .error e

/-- The JSON record on the last line that a tool printed; an empty one if it printed nothing. -/
def lastRecord (output : String) : Except Raised Json := do
  let text := Text.trim output
  if text.isEmpty then return .record []
  match Json.read ((Text.split '\n' text).getLastD "") with
  | .error f => .error (jsonError f)
  | .ok (.record fields) => return .record fields
  | .ok v => .error (noField v "get")

/-- The fields of a part of a record; a part that is missing or empty has none. -/
def partFields (name : String) (v : Json) : Except Raised (List (String × Json)) :=
  match optional name v with
  | .null => .ok []
  | .record fields => .ok fields
  | w => .error (noField w "items")

/-- The project's share in the time of a bench, in percent, and what else took time. -/
structure Slot where
  name : String
  percent : Float
  hot : List (Float × String)

/-- What else took time, from JSON. -/
def hotOf (v : Json) : List (Float × String) :=
  v.items.filterMap fun entry =>
    match entry.items with
    | [share, .text label] => (toFloat share).toOption.map (·, label)
    | _ => none

/-- The timings that a tool printed. -/
def readTimings (c : ToolRun) : Except Raised (List Slot) := do
  let record ← lastRecord (← c.output)
  let shares ← partFields "repo_time_pct" record
  shares.mapM fun (name, v) => do
    return ⟨name, ← toFloat v, hotOf (((optional "hot_ext" record).field? name).getD .null)⟩

/-- The self-checks that a tool printed; what is no record is passed over. -/
def readFindings (c : ToolRun) : Except Raised (List (String × Finding)) := do
  let record ← lastRecord (← c.output)
  let fields ← partFields "semcheck" record
  return fields.filterMap fun (name, v) =>
    match v with
    | .record _ => some (name, Finding.ofJson v)
    | _ => none

/-- The files that were changed, from a listing with two marks and a blank before each name. -/
def readChanges (c : ToolRun) : List String :=
  match c with
  | .failed _ => []
  | .finished _ output _ =>
    ((Text.split '\n' output).filter fun line => !(Text.trim line).isEmpty).map fun line =>
      String.ofList (line.toList.drop 3)

/-- The line about a tool whose output could not be used. -/
def toolFault (tool : Tool) (e : Raised) : String :=
  "[" ++ tool.name ++ " runner: " ++ e.line ++ "]\n"

/-- What a tool found, or nothing and a line about why. -/
def orNothing {α : Type} (tool : Tool) (r : Except Raised (List α)) : List α × String :=
  match r with
  | .ok xs => (xs, "")
  | .error e => ([], toolFault tool e)

end Pseudocode.Measure
