import Pseudocode.Json.Writer
import Pseudocode.Measure.Cover
import Pseudocode.Measure.Log
import Pseudocode.Measure.Plateau
import Pseudocode.Measure.Tool

/-!
# Rounds of measuring

A round runs the measuring tools one after the other, prints what they found, and puts a record of it at
the end of a log. What the tools, the clock and the files say is given.
-/

namespace Pseudocode.Measure

open Pseudocode.Text

/-- What a round finds around it. -/
structure Scene where
  coverage : ToolRun
  timing : ToolRun
  changes : ToolRun
  selfCheck : ToolRun
  /-- The coverage report. -/
  report : Option String
  hasTiming : Bool
  hasSelfCheck : Bool
  /-- The source of the benches. -/
  benches : Option String
  /-- The log of the rounds before. -/
  log : Option String
  started : Float
  ended : Float
  now : Float

/-- What came of a round. -/
structure RoundResult where
  /-- The exit code, unless the round ran to its end. -/
  exit : Option Int
  output : String
  errors : String
  /-- The tools that were run. -/
  calls : List Tool
  /-- What was added to the log. -/
  appended : String
  fault : Option Raised

/-! ## Printing -/

/-- The list of errors, eight at most. -/
def errorList (errors : List (String × Json)) : String :=
  if errors.isEmpty then ""
  else "\n" ++ toString errors.length ++ " bench error(s):\n" ++
    String.join ((errors.take 8).map fun (name, v) => "  " ++ name ++ ": " ++ valueText false v ++ "\n")

/-- The share below which a bench is slow. -/
def slowBelow : Float := 45.0

/-- Whether a bench ran, and too much of its time was spent elsewhere. -/
def Slot.isSlow (s : Slot) : Bool :=
  0.0 ≤ s.percent && s.percent < slowBelow

/-- The mark before a line that needs attention. -/
def flagged (b : Bool) : String :=
  if b then "  * " else "    "

/-- The line about the time of a bench. -/
def Slot.line (s : Slot) : String :=
  let failed := s.percent < 0.0
  let hot := if s.isSlow && !s.hot.isEmpty then
      " (hot: " ++ String.intercalate " " (s.hot.map fun (p, label) =>
        label ++ " " ++ Number.fixed 0 p ++ "%") ++ ")"
    else ""
  flagged s.isSlow ++ padRight 32 s.name ++ " " ++
    padLeft 5 (Number.fixed 1 (if failed then 0.0 else s.percent)) ++ "%" ++
    (if failed then "  <error>" else "") ++ hot ++ "\n"

/-- The list of times, the smallest share first. -/
def timeList (slots : List Slot) : String :=
  if slots.isEmpty then ""
  else "\nrepo_time (target 50%; * = below 45%):\n" ++
    String.join ((slots.mergeSort fun a b => a.percent ≤ b.percent).map Slot.line)

/-- The list of changed files, ten at most. -/
def changeList (changed : List String) : String :=
  if changed.isEmpty then ""
  else "\n** repo modified (" ++ toString changed.length ++
    " file(s)) — revert these; only microbench.py is yours to edit:\n" ++
    String.join ((changed.take 10).map fun file => "   " ++ file ++ "\n")

/-- What the verdicts ask for. -/
def verdictLegend : String :=
  "\nself-check (* = fix needed):\n" ++
  "  returns-none: run() has no return — collect and return the call results\n" ++
  "  unstable: seed RNG in setup; avoid time/uuid/id in the return\n" ++
  "  returns-input: return repo output, not the parameter value\n" ++
  "  low-repo-time: <50% of run() time is in repo code — move glue to setup\n" ++
  "  param-invariant: return something derived from run()'s work, not setup\n" ++
  "  repo-modified: revert edits to repo files (git checkout -- <path>)\n"

/-- The line about the verdict on a bench. -/
def verdictLine (name : String) (f : Finding) (v : Verdict) : String :=
  flagged v.isBad ++ padRight 32 name ++ " " ++ padRight 16 v.word ++ " (" ++ f.result.getD "?" ++
    ", repo " ++ Number.fixed 0 (least f.shares * 100.0) ++ "%) " ++ Number.fixed 1 (median f.times) ++ "ms\n"

/-- The list of verdicts, the bad ones first. -/
def verdictList (judged : List (String × Finding × Verdict)) : String :=
  let (bad, good) := judged.partition fun (_, _, v) => v.isBad
  if judged.isEmpty then ""
  else verdictLegend ++ String.join ((bad ++ good).map fun (name, f, v) => verdictLine name f v)

/-! ## Rounds -/

/-- What a round found. -/
structure Round where
  number : Nat
  benches : Nat
  cover : Cover
  seconds : Float
  slots : List Slot
  changed : List String
  judged : List (String × Finding × Verdict)

namespace Round

/-- How many benches are slow, if any ran. -/
def slow? (r : Round) : Option Nat :=
  if r.slots.any fun s => 0.0 ≤ s.percent then some (r.slots.countP Slot.isSlow) else none

/-- How many benches have to be mended. -/
def bad (r : Round) : Nat :=
  r.judged.countP fun (_, _, v) => v.isBad

/-- The line that sums up a round. -/
def summary (r : Round) : String :=
  let times := if r.slots.isEmpty then ""
    else toString (r.slow?.getD 0) ++ "/" ++ toString (r.slots.countP fun s => 0.0 ≤ s.percent) ++
      " below repo_time 45%, "
  let checks := if r.judged.isEmpty then ""
    else toString r.bad ++ "/" ++ toString r.judged.length ++ " not self-checking, "
  "\n[round " ++ toString r.number ++ ": " ++ toString r.benches ++ " benches, " ++
    Number.fixed 1 r.cover.percent ++ "% covered, " ++ times ++ checks ++ "measured in " ++
    Number.fixed 1 r.seconds ++ "s]\n"

/-- All that is printed about a round, given the counts of the rounds before. -/
def text (r : Round) (before : List Int) : String :=
  coverTable r.cover ++ errorList r.cover.errors ++ timeList r.slots ++ changeList r.changed ++
    verdictList r.judged ++ r.summary ++ announcement r.cover.percent before r.slow?

/-- The record of a round for the log. -/
def record (r : Round) (now wait : Float) : Json :=
  .record [
    ("round", .whole r.number),
    ("ts", .real now),
    ("wall_since_prev_s", .real wait),
    ("coverage_pct", .real r.cover.percent),
    ("covered_lines", r.cover.covered),
    ("num_statements", r.cover.statements),
    ("n_bench_fns", .whole r.benches),
    ("n_bench_errors", .whole r.cover.errors.length),
    ("cov_measure_s", .real (Number.roundTo 3 r.seconds)),
    ("repo_time_pct", .record (r.slots.map fun s => (s.name, .real s.percent))),
    ("n_below_repo_time", (r.slow?.map fun n => Json.whole n).getD .null),
    ("semcheck", .record (r.judged.map fun (name, _, v) => (name, .text v.word))),
    ("n_not_self_checking", .whole r.bad)]

end Round

/-- What came of a round in which the coverage could not be measured. -/
def coverageFailed (code : Int) (output errors : String) : RoundResult where
  exit := some (if code == 0 then 1 else code)
  output := "coverage measurement failed (exit " ++ toString code ++ ")\n" ++ output ++ "\n"
  errors := errors
  calls := [.coverage]
  appended := ""
  fault := none

namespace Scene

/-- The times of the benches, and a line about why there are none. -/
def slots (scene : Scene) : List Slot × String :=
  if scene.hasTiming then orNothing .timing (readTimings scene.timing) else ([], "")

/-- The files that were changed. -/
def changed (scene : Scene) : List String :=
  if scene.hasSelfCheck then readChanges scene.changes else []

/-- What is known of the benches, and a line about why nothing is. -/
def findings (scene : Scene) : List (String × Finding) × String :=
  if scene.hasSelfCheck then orNothing .selfCheck (readFindings scene.selfCheck) else ([], "")

/-- What a round finds, given what is covered. -/
def round (scene : Scene) (cover : Cover) : Round where
  number := (logLines scene.log).length + 1
  benches := countBenches (scene.benches.getD "")
  cover := cover
  seconds := scene.ended - scene.started
  slots := scene.slots.1
  changed := scene.changed
  judged := scene.findings.1.map fun (name, f) => (name, f, f.verdict !scene.changed.isEmpty)

end Scene

/-- A round with a coverage report. -/
def roundWith (scene : Scene) (errors : String) (cover : Cover) : RoundResult :=
  let r := scene.round cover
  let (records, sound) := logRecords (logLines scene.log)
  { exit := none
    output := r.text (slowCounts records)
    errors := errors ++ scene.slots.2 ++ scene.findings.2
    calls := [.coverage] ++ (if scene.hasTiming then [.timing] else []) ++
      (if scene.hasSelfCheck then [.changes, .selfCheck] else [])
    appended := if sound then (r.record scene.now (sinceLast scene.now records)).write ++ "\n" else ""
    fault := none }

/-- A round of measuring. -/
def round (scene : Scene) : RoundResult :=
  match scene.coverage with
  | .failed e => ⟨none, "", "", [.coverage], "", some e⟩
  | .finished code output errors =>
    match code == 0, scene.report with
    | true, some report =>
      match Json.read report with
      | .error f => ⟨none, "", errors, [.coverage], "", some (jsonError f)⟩
      | .ok (.record fields) => roundWith scene errors (Cover.ofJson (.record fields))
      | .ok v => ⟨none, "", errors, [.coverage], "", some (noField v "get")⟩
    | _, _ => coverageFailed code output errors

end Pseudocode.Measure
