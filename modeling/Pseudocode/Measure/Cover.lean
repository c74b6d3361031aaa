import Pseudocode.Measure.SelfCheck
import Pseudocode.Text.Column

/-!
# Coverage reports

What a coverage report says about the files of the project, and the table that shows it.
-/

namespace Pseudocode.Measure

open Pseudocode.Text

/-- A file in the coverage report. -/
structure FileCover where
  name : String
  statements : Json
  missing : Json
  percent : Float
  lines : List Int

/-- What the coverage report says. -/
structure Cover where
  percent : Float
  covered : Json
  statements : Json
  files : List FileCover
  /-- The errors of the benches. -/
  errors : List (String × Json)

/-- A number of a record, zero if it is missing. -/
def numberField (name : String) (v : Json) : Json :=
  (v.field? name).getD (.whole 0)

/-- What a report says about a file. -/
def FileCover.ofJson (name : String) (v : Json) : FileCover :=
  let summary := optional "summary" v
  { name
    statements := numberField "num_statements" summary
    missing := numberField "missing_lines" summary
    percent := ((toFloat (numberField "percent_covered" summary)).toOption).getD 0.0
    lines := (optional "missing_lines" v).items.filterMap Json.whole? }

/-- What a coverage report says. -/
def Cover.ofJson (v : Json) : Cover :=
  let totals := optional "totals" v
  { percent := ((toFloat (numberField "percent_covered" totals)).toOption).getD 0.0
    covered := numberField "covered_lines" totals
    statements := numberField "num_statements" totals
    files := (optional "files" v).fields.map fun (name, f) => FileCover.ofJson name f
    errors := (optional "_pti_bench_errors" (optional "meta" v)).fields }

/-- Whether a number is greater than another. -/
def isGreater (a b : Json) : Bool :=
  match toFloat a, toFloat b with
  | .ok x, .ok y => y < x
  | _, _ => false

/-- The difference of two numbers, a whole one of whole numbers. -/
def difference (a b : Json) : Json :=
  match a, b with
  | .whole m, .whole n => .whole (m - n)
  | a, b => .real (((toFloat a).toOption).getD 0.0 - ((toFloat b).toOption).getD 0.0)

/-! ## The table -/

/-- How many line numbers a row has. -/
def lineLimit : Nat := 12

/-- How many rows the table has. -/
def rowLimit : Nat := 120

/-- How wide the column of names may be. -/
def nameWidth : Nat := 60

/-- Line numbers as text. -/
def linesText (lines : List Int) : String :=
  String.intercalate ", " ((lines.take lineLimit).map toString)

/-- Whether a file comes before another: the one of which less is covered, and else the one with more statements. -/
def FileCover.comesFirst (a b : FileCover) : Bool :=
  a.percent < b.percent || (a.percent == b.percent && !isGreater b.statements a.statements)

/-- A row of the table of files. -/
def tableRow (width : Nat) (name : String) (statements missing : Json) (percent : Float) : String :=
  padRight width name ++ "  " ++ padLeft 5 (valueText false statements) ++ "  " ++
    padLeft 4 (valueText false missing) ++ "  " ++ padLeft 4 (Number.fixed 0 percent) ++ "%"

/-- The table of files, those of which the least is covered first. -/
def coverTable (c : Cover) : String :=
  let width := min nameWidth ((c.files.map fun f => f.name.length).foldl max 4)
  let rule := String.ofList (List.replicate (42 + width) '-') ++ "\n"
  let sorted := (c.files.mergeSort FileCover.comesFirst).take rowLimit
  padRight width "Name" ++ "  Stmts  Miss  Cover  Missing\n" ++ rule ++
    String.join (sorted.map fun f =>
      tableRow width f.name f.statements f.missing f.percent ++ "  " ++ linesText f.lines ++ "\n") ++
    rule ++ tableRow width "TOTAL" c.statements (difference c.statements c.covered) c.percent ++ "\n"

end Pseudocode.Measure
