import Pseudocode.Measure.Frame
import Pseudocode.Measure.Raised
import Pseudocode.Measure.Sample

/-!
# Benches

A bench is a function of a module whose name starts in a certain way. It is called with parameters and
hands back a run, or a result at once. What it does when run is described here by what comes of it.
-/

namespace Pseudocode.Measure

/-- The parameters of a call. -/
abbrev Params := List (String × Json)

/-- What a function comes to when it is called. -/
structure Behaviour where
  /-- The call itself fails. -/
  setupFault : Option Raised
  /-- The result is handed back at once, and not by a run. -/
  direct : Bool
  /-- The run fails. -/
  fault : Option Raised
  /-- The run takes too long. -/
  slow : Bool
  /-- Results for certain parameters. -/
  fixed : List (Params × Sample)
  /-- Results of the other runs, one after the other. -/
  values : List Sample
  /-- The parameters that the bench is to be called with. -/
  params : List Params
  profiles : List Profile

/-- A member of the module of benches. -/
inductive Member where
  | value (v : Sample)
  | function (b : Behaviour)

/-- The members of the module, by name. -/
abbrev BenchModule := List (String × Member)

/-! ## Equality of parameters -/

mutual

/-- Whether two JSON values are equal: numbers by value, truth values as numbers, records whatever the
order of their fields. -/
def sameJson : Json → Json → Bool
  | .null, .null => true
  | .text s, .text t => s == t
  | .list xs, .list ys => sameItems xs ys
  | .record fs, .record gs => fs.length == gs.length && sameFields fs gs
  | a, b => (Sample.ofJson a).sameNumber (Sample.ofJson b)

/-- Whether two lists of JSON values are equal. -/
def sameItems : List Json → List Json → Bool
  | [], [] => true
  | x :: xs, y :: ys => sameJson x y && sameItems xs ys
  | _, _ => false

/-- Whether all fields are found with equal values among others. -/
def sameFields : List (String × Json) → List (String × Json) → Bool
  | [], _ => true
  | (k, v) :: rest, gs =>
    (match gs.lookup k with
      | some w => sameJson v w
      | none => false) && sameFields rest gs

end

/-! ## Calls -/

/-- The entry of a list at a place, the last one beyond its end. -/
def atOrLast {α : Type} (xs : List α) (i : Nat) : Option α :=
  xs[min i (xs.length - 1)]?

/-- What calling a sample hands back: types make their plainest value, and nothing else can be called. -/
def called (v : Sample) : Sample :=
  match v with
  | .type name => if name == "int" then .int 0 else .error name
  | v => v

namespace Behaviour

/-- What a run comes to, after `used` results have been handed out, and how many have been then. -/
def run (b : Behaviour) (given : Params) (used : Nat) : Except Raised Sample × Nat :=
  match b.fault with
  | some e => (.error e, used)
  | none =>
    if b.slow then (.error .timeout, used)
    else
      match b.fixed.find? fun (p, _) => sameJson (.record p) (.record given) with
      | some (_, v) => (.ok v, used)
      | none => (.ok ((atOrLast b.values used).getD .none), used + 1)

/-- What a call and the run that it hands back come to. -/
def call (b : Behaviour) (given : Params) (used : Nat) : Except Raised Sample × Nat :=
  match b.setupFault with
  | some e => (.error e, used)
  | none =>
    let (result, used) := b.run given used
    (if b.direct then result.map called else result, used)

end Behaviour

namespace Member

/-- Whether a member can be called. -/
def isCallable : Member → Bool
  | value (.type _) => true
  | value _ => false
  | function _ => true

/-- What a call of a member and the run that it hands back come to. -/
def call (m : Member) (given : Params) (used : Nat) : Except Raised Sample × Nat :=
  match m with
  | value v => (.ok (called v), used)
  | function b => b.call given used

/-- The parameters that a member is to be called with. -/
def params : Member → List Params
  | value _ => []
  | function b => b.params

/-- What the profiler reports when it is asked once more, after `asked` times. -/
def profile (m : Member) (asked : Nat) : Profile :=
  match m with
  | value _ => .empty
  | function b => (atOrLast b.profiles asked).getD .empty

end Member

/-- The benches of a module in the order of their names. -/
def benchesOf (members : BenchModule) : BenchModule :=
  (members.filter fun (name, m) => name.startsWith "bench_" && m.isCallable).mergeSort
    fun a b => a.1 ≤ b.1

/-- Whether a character can stand in a name. -/
def isNameChar (c : Char) : Bool :=
  c.isAlphanum || c == '_' || 0x80 ≤ c.toNat

/-- How many benches a source defines. -/
def countBenches (source : String) : Nat :=
  let head := "def bench_".toList
  ((Text.split '\n' source).filter fun line =>
    head.isPrefixOf line.toList && (line.toList.drop head.length).head?.any isNameChar).length

/-- What is printed when the module cannot be loaded. -/
def importReport (e : Raised) : Json :=
  .record [("_import_error", .text e.line)]

end Pseudocode.Measure
