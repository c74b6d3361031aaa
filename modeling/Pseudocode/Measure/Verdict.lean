import Pseudocode.Measure.Bench

/-!
# Verdicts on benches

What a self-check says of a bench, and the verdict on it.
-/

namespace Pseudocode.Measure

/-- What is known of a bench from its self-check. -/
structure Finding where
  /-- The kind of the result, unless nothing is known of it. -/
  result : Option String
  /-- The fingerprints of runs without parameters. -/
  stable : List Json
  /-- The fingerprints of runs with parameters. -/
  byParams : List Json
  /-- The fingerprints of the parameters. -/
  params : List Json
  /-- The project's shares in the time of the runs. -/
  shares : List Float
  /-- The project's times in milliseconds. -/
  times : List Float

/-- The numbers among the values of a record. -/
def numbersOf (v : Json) : List Float :=
  v.fields.filterMap fun (_, x) => (toFloat x).toOption

/-- What is known of a bench from a self-check as JSON. -/
def Finding.ofJson (v : Json) : Finding where
  result := (optional "ret_type" v).text?
  stable := (optional "fp_stable" v).items
  byParams := (optional "fp_by_param" v).fields.map (·.2)
  params := (optional "param_fps" v).items
  shares := numbersOf (optional "repo_frac" v)
  times := numbersOf (optional "repo_tt_ms" v)

/-- The verdicts, the first that applies being given. -/
inductive Verdict where
  | projectChanged
  | error
  | noResult
  | unstable
  | givesInput
  | littleProjectTime
  | fast
  | withoutParams
  | sameForAll
  | fine
deriving DecidableEq, Repr

namespace Verdict

/-- The word for a verdict. -/
def word : Verdict → String
  | projectChanged => "repo-modified"
  | error => "error"
  | noResult => "returns-none"
  | unstable => "unstable"
  | givesInput => "returns-input"
  | littleProjectTime => "low-repo-time"
  | fast => "too-fast"
  | withoutParams => "ok-unparam"
  | sameForAll => "param-invariant"
  | fine => "ok"

/-- Whether the bench has to be mended. -/
def isBad : Verdict → Bool
  | withoutParams | fine => false
  | _ => true

end Verdict

/-- The least of some numbers, or zero. -/
def least (xs : List Float) : Float :=
  match xs with
  | [] => 0.0
  | x :: rest => rest.foldl (fun a b => if b < a then b else a) x

/-- The middle one of some numbers, or the mean of the middle two, or zero. -/
def median (xs : List Float) : Float :=
  let sorted := xs.mergeSort fun a b => a ≤ b
  let n := sorted.length
  if n == 0 then 0.0
  else if n % 2 == 1 then sorted.getD (n / 2) 0.0
  else (sorted.getD (n / 2 - 1) 0.0 + sorted.getD (n / 2) 0.0) / 2.0

/-- Whether all of some values are equal to the first, and there is a first. -/
def allSame : List Json → Bool
  | [] => false
  | v :: rest => rest.all (sameJson v)

/-- The verdict on a bench. -/
def Finding.verdict (f : Finding) (changed : Bool) : Verdict :=
  let result := f.result.getD "?"
  if changed then .projectChanged
  else if result.startsWith "<" || result == "?" then .error
  else if result == "NoneType" then .noResult
  else if !allSame f.stable then .unstable
  else if (f.stable.take 1).any fun v => f.params.any (sameJson v) then .givesInput
  else if !f.shares.isEmpty && least f.shares < 0.5 then .littleProjectTime
  else if !f.times.isEmpty && median f.times < 1.0 then .fast
  else if f.byParams.length < 2 then .withoutParams
  else if allSame f.byParams then .sameForAll
  else .fine

end Pseudocode.Measure
