import Pseudocode.Number.Binary
import Pseudocode.Text.Blank

/-!
# Profiles

A profile says how long each function of a run took. What counts as time of the project are the functions
in files below its root, other than the benches, the tools and what others wrote.
-/

namespace Pseudocode.Measure

/-- The time that one function took by itself. -/
structure Frame where
  file : String
  time : Float

/-- What a profiler reports of a run. -/
structure Profile where
  total : Float
  frames : List Frame

namespace Profile

/-- The profile of a run in which nothing took time. -/
def empty : Profile :=
  ⟨0.0, []⟩

/-- The sum of some times, from left to right. -/
def sum (times : List Float) : Float :=
  times.foldl (· + ·) 0.0

end Profile

/-- The directory that the project is in. -/
def projectRoot : List String :=
  ["repo"]

/-- The file that the benches are in. -/
def benchFile : String :=
  "microbench.py"

/-- Directories below the root that hold what others wrote or what was generated. -/
def foreignDirectories : List String :=
  ["build", "dist", "vendor", "_vendor", "third_party", "site-packages", "node_modules", ".venv", "venv",
   ".tox", ".eggs"]

/-- The steps of a path from the root: empty steps and those that stay are dropped, and those that go up
take back a step. -/
def resolve (done : List String) : List String → List String
  | [] => done.reverse
  | step :: rest =>
    if step == "" || step == "." then resolve done rest
    else if step == ".." then resolve done.tail rest
    else resolve (step :: done) rest

/-- The steps of a file's path from the root. A relative path starts at the project. -/
def absolute (file : String) : List String :=
  let steps := Text.split '/' file
  if file.startsWith "/" then resolve [] steps else resolve projectRoot.reverse steps

/-- The text of an absolute path. -/
def pathOf (steps : List String) : String :=
  "/" ++ String.intercalate "/" steps

/-- Whether a directory holds what others wrote. -/
def isForeign (directory : String) : Bool :=
  foreignDirectories.contains directory || directory.endsWith ".egg-info"

/-- Whether the steps below the root of the project lead to a file of the project itself. -/
def isOwn (steps : List String) : Bool :=
  match steps.reverse with
  | [] => false
  | name :: directories =>
    steps != [benchFile] && !name.startsWith "_pti_" && !directories.any isForeign

/-- Whether time in a file is time of the project. What has no file of its own never is. -/
def isProjectFile (file : String) : Bool :=
  if file.isEmpty || file.startsWith "<" || file.startsWith "~" then false
  else
    match absolute file with
    | root :: steps => [root] == projectRoot && isOwn steps
    | [] => false

namespace Profile

/-- The time that the functions of the project took. -/
def projectTime (p : Profile) : Float :=
  sum ((p.frames.filter fun f => isProjectFile f.file).map (·.time))

/-- A part of the total time, as a share. -/
def share (p : Profile) (time : Float) : Float :=
  if p.total == 0.0 then 0.0 else time / p.total

/-- A part of the total time, in percent. -/
def percent (p : Profile) (time : Float) : Float :=
  if p.total == 0.0 then 0.0 else 100.0 * time / p.total

end Profile

end Pseudocode.Measure
