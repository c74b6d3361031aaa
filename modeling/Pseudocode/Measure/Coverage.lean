import Pseudocode.Json.Writer
import Pseudocode.Measure.SelfCheck

/-!
# Coverage runs

All benches are run once while a coverage recorder is on. The recorder's report is written to a file, with
the errors of the benches put into it, and summed up in one line.
-/

namespace Pseudocode.Measure

/-- What the recorder is asked to do. -/
inductive RecorderCall where
  /-- Makes a recorder for the files below a directory, but for some. -/
  | create (source : String) (omitted : Json)
  | start
  | stop
  | report (file : String)

namespace RecorderCall

/-- The name of a call and its arguments. -/
def toJson : RecorderCall → Json
  | create source omitted =>
    .list [.text "Coverage", .record [("branch", .bool false), ("config_file", .bool false),
      ("data_file", .null), ("omit", omitted), ("source", .list [.text source])]]
  | start => .list [.text "start"]
  | stop => .list [.text "stop"]
  | report file => .list [.text "json_report", .text file, .bool true]

end RecorderCall

/-- What a coverage run is asked for. -/
structure CoverageRequest where
  root : String
  /-- The file that the report goes to. -/
  file : String
  /-- The patterns of the files to leave out, as JSON text. -/
  omitted : String

/-- What came of a coverage run. -/
structure CoverageRun where
  calls : List RecorderCall
  /-- The text of the report, if it was written. -/
  written : Option String
  output : String
  fault : Option Raised

/-- The errors of the benches of a module by name, and how many benches there are. A module that cannot be
loaded has no benches and one error. -/
def benchErrors : Except Raised BenchModule → List (String × Json) × Nat
  | .error e => ([("<import>", .text e.line)], 0)
  | .ok members =>
    let benches := benchesOf members
    (benches.filterMap fun (name, m) =>
      match (m.call [] 0).1 with
      | .ok _ => none
      | .error e => some (name, .text e.line), benches.length)

/-- A report with what is known about the benches put into its head. -/
def annotate (report : Json) (errors : List (String × Json)) (count : Nat) : Json :=
  let head := ((report.field? "meta").map Json.fields).getD []
  let head := Json.put "_pti_bench_errors" (.record errors) head
  let head := Json.put "_pti_n_benches" (.whole count) head
  .record (Json.put "meta" (.record head) report.fields)

/-- The line that sums up a report. -/
def summaryLine (report : Json) (errors count : Nat) : Except Raised String := do
  let totals ← required "totals" report
  let percent ← toFloat (← required "percent_covered" totals)
  let covered ← required "covered_lines" totals
  let statements ← required "num_statements" totals
  return "coverage: " ++ Number.fixed 1 percent ++ "% (" ++ valueText false covered ++ "/" ++
    valueText false statements ++ " stmts, " ++ toString count ++ " benches, " ++ toString errors ++
    " errors)\n"

/-- Runs the benches under a recorder that comes to a given report. -/
def coverageRun (q : CoverageRequest) (members : Except Raised BenchModule) (report : Json) : CoverageRun :=
  match Json.read q.omitted with
  | .error f => ⟨[], none, "", some (jsonError f)⟩
  | .ok omitted =>
    let (errors, count) := benchErrors members
    let report := annotate report errors count
    let calls := [.create (pathOf (absolute q.root)) omitted, .start, .stop, .report q.file]
    match summaryLine report errors.length count with
    | .error e => ⟨calls, some report.write, "", some e⟩
    | .ok line => ⟨calls, some report.write, line, none⟩

end Pseudocode.Measure
