import Pseudocode.Measure.Bench

/-!
# Self-checks

A bench is worth running if its result says that it did its work: two runs give the same result, other
parameters give another one, and the result is no parameter handed through. This module runs the benches
and puts down the fingerprints by which that is judged, and the shares of the project and of compiled code
in the time of each run.
-/

namespace Pseudocode.Measure

/-! ## Parameters as text -/

mutual

/-- A parameter's value as text; texts stand in quotes inside lists and records. -/
def valueText (inside : Bool) : Json → String
  | .null => "None"
  | .bool b => if b then "True" else "False"
  | .whole n => toString n
  | .real x => fractionStyle.write x
  | .text s => if inside then Text.quoted s else s
  | .list items => "[" ++ String.intercalate ", " (itemTexts items) ++ "]"
  | .record fields => "\x7b" ++ String.intercalate ", " (fieldTexts fields) ++ "\x7d"

/-- The texts of the items of a list. -/
def itemTexts : List Json → List String
  | [] => []
  | v :: rest => valueText true v :: itemTexts rest

/-- The texts of the fields of a record. -/
def fieldTexts : List (String × Json) → List String
  | [] => []
  | (k, v) :: rest => (Text.quoted k ++ ": " ++ valueText true v) :: fieldTexts rest

end

/-- The text of the parameters of a call. -/
def paramsText (given : Params) : String :=
  if given.isEmpty then "-"
  else String.intercalate "," (given.map fun (k, v) => k ++ "=" ++ valueText false v)

/-! ## Runs -/

/-- Whether a file holds compiled code. -/
def isCompiled (file : String) : Bool :=
  file == "~" || file.endsWith ".so" || file.endsWith ".pyd"

/-- How the time of a run was spent. -/
structure Spent where
  /-- The project's time in milliseconds. -/
  milliseconds : Float
  projectShare : Float
  compiledShare : Float

/-- How the time of a profiled run was spent. -/
def Spent.ofProfile (p : Profile) : Spent :=
  let compiled := Profile.sum ((p.frames.filter fun f => isCompiled f.file).map (·.time))
  ⟨Number.roundTo 3 (p.projectTime * 1000.0), Number.roundTo 3 (p.share p.projectTime),
    Number.roundTo 3 (p.share compiled)⟩

/-- What is put down about a bench. -/
structure SelfCheck where
  /-- The kind of the result, or of the error. -/
  result : String
  /-- The fingerprints of two runs without parameters. -/
  stable : List String
  /-- The fingerprints of the runs with parameters. -/
  byParams : List (String × String)
  spent : List (String × Spent)
  /-- The fingerprints of the parameters themselves. -/
  params : List String

namespace SelfCheck

/-- What is put down about a bench that failed. -/
def failed (e : Raised) : SelfCheck :=
  ⟨e.bracketed, [], [], [], []⟩

/-- Runs a bench with each of its parameters, after `used` results and `asked` profiles. -/
def withParams (m : Member) (c : SelfCheck) (used asked : Nat) : List Params → Except Raised SelfCheck
  | [] => .ok c
  | given :: rest =>
    match m.call given used with
    | (.error e, _) => .error e
    | (.ok v, used) =>
      let key := paramsText given
      let c := { c with
        byParams := Json.put key v.fingerprint c.byParams
        spent := Json.put key (Spent.ofProfile (m.profile asked)) c.spent
        params := c.params ++ given.map fun (_, x) => (Sample.ofJson x).fingerprint }
      withParams m c used (asked + 1) rest

/-- What is put down about a bench that gave two results without parameters. -/
def withoutParams (m : Member) (v w : Sample) : SelfCheck where
  result := v.kindName
  stable := [v.fingerprint, w.fingerprint]
  byParams := []
  spent := [("<default>", Spent.ofProfile (m.profile 0))]
  params := []

/-- Runs a bench twice without parameters, and then with each of its parameters. -/
def run (m : Member) : Except Raised SelfCheck := do
  let (first, used) := m.call [] 0
  let v ← first
  let (second, used) := m.call [] used
  let w ← second
  withParams m (withoutParams m v w) used 1 m.params

/-- What is put down about a bench. -/
def ofMember (m : Member) : SelfCheck :=
  match run m with
  | .ok c => c
  | .error e => failed e

/-- A self-check as JSON. -/
def toJson (c : SelfCheck) : Json :=
  let times (f : Spent → Float) : Json := .record (c.spent.map fun (k, s) => (k, .real (f s)))
  .record [
    ("ret_type", .text c.result),
    ("fp_stable", .list (c.stable.map .text)),
    ("fp_by_param", .record (c.byParams.map fun (k, fp) => (k, .text fp))),
    ("repo_tt_ms", times (·.milliseconds)),
    ("repo_frac", times (·.projectShare)),
    ("ext_frac", times (·.compiledShare)),
    ("param_fps", .list (c.params.map .text))]

end SelfCheck

/-- The report on the benches of a module. -/
def selfCheckReport (members : BenchModule) : Json :=
  .record [("semcheck", .record ((benchesOf members).map fun (name, m) =>
    (name, (SelfCheck.ofMember m).toJson)))]

end Pseudocode.Measure
