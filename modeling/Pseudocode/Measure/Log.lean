import Pseudocode.Measure.Raised
import Pseudocode.Number.Decimal
import Pseudocode.Text.Blank

/-!
# The log of rounds

Each round leaves a record on a line of its own. The lines are counted as they are. What they say is used up
to the first that is no record, and then nothing more is put into the log.
-/

namespace Pseudocode.Measure

/-- The lines of a log that are not blank. -/
def logLines (log : Option String) : List String :=
  (Text.split '\n' (log.getD "")).filter fun line => !(Text.trim line).isEmpty

/-- The record that a line of a log is. -/
def logRecord? (line : String) : Option Json :=
  match Json.read line with
  | .ok (.record fields) => some (.record fields)
  | _ => none

/-- The records of a log up to the first line that is none, and whether all lines are records. -/
def logRecords : List String → List Json × Bool
  | [] => ([], true)
  | line :: rest =>
    match logRecord? line with
    | none => ([], false)
    | some r =>
      let (rs, sound) := logRecords rest
      (r :: rs, sound)

/-- The counts of slow benches in the records of a log. -/
def slowCounts (records : List Json) : List Int :=
  records.filterMap fun r => (r.field? "n_below_repo_time").bind fun v =>
    match v with
    | .whole n => some n
    | .bool b => some (if b then 1 else 0)
    | _ => none

/-- The time since the last record of a log. -/
def sinceLast (now : Float) (records : List Json) : Float :=
  match (records.getLast?.bind (·.field? "ts")).map toFloat with
  | some (.ok t) => Number.roundTo 2 (now - t)
  | _ => 0.0

end Pseudocode.Measure
