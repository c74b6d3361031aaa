import Pseudocode.Session.Basic
import Pseudocode.Tree.Parser

/-!
# Desks

A session does not run the program that reading a text gives back. It runs what the parser holds then, and
the parser changes that with every item that it has read, also of a text that turns out to be wrong. A desk
is a session with such a parser.
-/

namespace Pseudocode

/-- A session with the parser that reads its texts. -/
structure Desk where
  session : Session
  parser : Parser

namespace Desk

/-- A desk at which nothing was read. -/
def fresh : Desk :=
  ⟨.fresh, .fresh⟩

/-- Reads a source text, runs what the parser holds then and shows the result. Gives the desk after it,
what was printed, and whether all went well. -/
def process (fuel : Nat) (source : String) (d : Desk) : Desk × String × Bool :=
  match d.parser.parse source with
  | (.error f, parser) => (⟨d.session, parser⟩, Session.unreadLine f, false)
  | (.ok _, parser) =>
    let (s, output, well) := d.session.carryOut fuel parser.latest
    (⟨s, parser⟩, output, well)

/-- The desk after texts, each with the steps that its run may take. -/
def after (d : Desk) : List (Nat × String) → Desk
  | [] => d
  | (fuel, source) :: rest => (d.process fuel source).1.after rest

/-- The texts with which all goes well. -/
def successes (d : Desk) : List (Nat × String) → List String
  | [] => []
  | (fuel, source) :: rest =>
    (if (d.process fuel source).2.2 then [source] else []) ++ (d.process fuel source).1.successes rest

end Desk

end Pseudocode
