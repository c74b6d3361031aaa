/-!
# Plateaus

The counts of slow benches, round by round. Once a number of rounds has brought no new lowest count, more
rounds are of no use.
-/

namespace Pseudocode.Measure

/-- The lowest count so far, and how many rounds came after it without a lower one. -/
structure Plateau where
  best : Int
  since : Nat
deriving DecidableEq, Repr

namespace Plateau

/-- What is known after one more round. -/
def next (p : Plateau) (count : Int) : Plateau :=
  if count < p.best then ⟨count, 0⟩ else ⟨p.best, p.since + 1⟩

/-- What is known after rounds, of which there is a first. -/
def ofRounds (first : Int) (rest : List Int) : Plateau :=
  rest.foldl next ⟨first, 0⟩

/-- What is known after the rounds before and the one now. -/
def after (before : List Int) (now : Int) : Plateau :=
  match before with
  | [] => ofRounds now []
  | first :: rest => ofRounds first (rest ++ [now])

end Plateau

/-- Why no more rounds are needed. -/
inductive Stop where
  /-- No bench is slow. -/
  | converged
  /-- Some rounds have brought no better count than the best one. -/
  | stuck (best : Int) (rounds : Nat)
deriving DecidableEq, Repr

/-- The reason as it is announced. -/
def Stop.reason : Stop → String
  | converged => "0 below"
  | stuck best rounds => "no improvement in " ++ toString rounds ++ " rounds; best " ++ toString best ++ " below"

/-- How many rounds without a better count are enough. -/
def patience : Nat := 3

/-- The covered share, in percent, from which on rounds may end. -/
def coverageGoal : Float := 60.0

/-- Whether rounds may end, given the covered share, the counts of the rounds before and the count now. -/
def stop? (covered : Float) (before : List Int) (now : Option Nat) : Option Stop :=
  match now with
  | none => none
  | some n =>
    if coverageGoal ≤ covered then
      if n = 0 then some .converged
      else
        let p := Plateau.after before n
        if patience ≤ p.since then some (.stuck p.best p.since) else none
    else none

/-- What is printed if rounds may end. -/
def announcement (covered : Float) (before : List Int) (now : Option Nat) : String :=
  match stop? covered before now with
  | none => ""
  | some s => "\n>>> STOP: repo_time converged (" ++ s.reason ++ "). Finalize microbench.py now. <<<\n"

end Pseudocode.Measure
