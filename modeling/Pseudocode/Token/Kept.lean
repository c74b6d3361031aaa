import Pseudocode.Token.Layout

/-!
# Kept tokens

Tokens that were collected may be kept and gone over again. Each pass notes on a token what its line says
about it, over what an earlier pass has noted, and lays the tokens out by these notes.
-/

namespace Pseudocode

/-- A token that is kept, with what was noted on it: whether it opens its line, and whether it has to open
a block. -/
structure Kept where
  token : Token
  notes : Option (Bool × Bool)

namespace Kept

/-- Notes what a tracker says of the token, over what was noted before. -/
def note (k : Kept) (t : Tracked) : Kept :=
  { k with notes := some (t.opening, t.opensBlock) }

/-- The token as the notes have it. -/
def tracked (k : Kept) : Tracked :=
  ⟨k.token, (k.notes.map Prod.fst).getD false, (k.notes.map Prod.snd).getD false⟩

/-- A blank that opens no line, by the notes. No such token may be kept. -/
def strays (k : Kept) : Bool :=
  k.token.kind == .blank && !k.tracked.opening

/-- One pass over kept tokens. It gives out tokens without an end marker, and the fault if there is one. The
notes stay, and behind a fault the older ones do. -/
def pass (l : LineTracker) (d : Indenter) (seen : Option Nat) :
    List Kept → (List Token × Option ReadFault) × List Kept
  | [] => ((d.finish (seen.getD 1), none), [])
  | k :: rest =>
    let noted := k.note (l.step k.token).1
    if noted.strays then (([], some .mixedBlanks), noted :: rest)
    else
      match d.step noted.tracked with
      | .error f => (([], some f), noted :: rest)
      | .ok (out, d) =>
        let more := pass (l.step k.token).2 d (some k.token.line) rest
        ((out ++ more.1.1, more.1.2), noted :: more.2)

/-- What a number of passes over the same tokens come to, one after the other. -/
def passes : Nat → List Kept → List (List Token × Option ReadFault)
  | 0, _ => []
  | n + 1, kept => (pass .start .start none kept).1 :: passes n (pass .start .start none kept).2

end Kept

end Pseudocode
