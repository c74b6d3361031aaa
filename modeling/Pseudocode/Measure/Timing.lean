import Pseudocode.Measure.Bench

/-!
# Time spent in the project

Each bench is run once under the profiler. The share of the project's own functions is reported, and the
two files outside it that took most of the time.
-/

namespace Pseudocode.Measure

/-- The name under which time outside the project is counted. -/
def outsideLabel (file : String) : String :=
  if file == "~" then "builtins"
  else if absolute file == projectRoot ++ [benchFile] then "<run() body>"
  else
    let name := (Text.split '/' file).getLastD ""
    if name.isEmpty then file
    else if name.endsWith ".py" then (name.dropEnd 3).toString
    else name

/-- Adds a time to that of a label. -/
def addTime (label : String) (time : Float) : List (String × Float) → List (String × Float)
  | [] => [(label, time)]
  | (l, t) :: rest => if l == label then (l, t + time) :: rest else (l, t) :: addTime label time rest

/-- The times outside the project by label, in the order in which the labels first came. -/
def outsideTimes (p : Profile) : List (String × Float) :=
  (p.frames.filter fun f => !isProjectFile f.file).foldl
    (fun times f => addTime (outsideLabel f.file) f.time times) []

/-- Whether a time comes before another: the longer one, and on a tie the label that is later in the
alphabet. -/
def comesFirst (a b : String × Float) : Bool :=
  b.2 < a.2 || (a.2 == b.2 && b.1 ≤ a.1)

/-- The two longest times outside the project, in percent. -/
def hotSpots (p : Profile) : List (Float × String) :=
  (((outsideTimes p).filter fun (_, t) => 0.0 < t).mergeSort comesFirst).take 2 |>.map
    fun (label, t) => (Number.roundTo 1 (p.percent t), label)

/-- The project's share in a bench's time, in percent, and what else took time. -/
structure Timing where
  percent : Float
  hot : List (Float × String)

namespace Timing

/-- The timing of a bench that failed. -/
def failed (e : Raised) : Timing :=
  ⟨-1.0, [(0.0, e.bracketed)]⟩

/-- The timing of a profile. -/
def ofProfile (p : Profile) : Timing :=
  ⟨Number.roundTo 1 (p.percent p.projectTime), hotSpots p⟩

/-- The timing of a bench. -/
def ofMember (m : Member) : Timing :=
  match (m.call [] 0).1 with
  | .error e => failed e
  | .ok _ => ofProfile (m.profile 0)

/-- What took time outside the project, as JSON. -/
def hotJson (t : Timing) : Json :=
  .list (t.hot.map fun (percent, label) => .list [.real percent, .text label])

end Timing

/-- The report on the benches of a module. -/
def timingReport (members : BenchModule) : Json :=
  let timings := (benchesOf members).map fun (name, m) => (name, Timing.ofMember m)
  .record [
    ("repo_time_pct", .record (timings.map fun (name, t) => (name, .real t.percent))),
    ("hot_ext", .record (timings.map fun (name, t) => (name, t.hotJson)))]

end Pseudocode.Measure
