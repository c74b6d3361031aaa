/-!
# Columns

Texts filled with blanks to the width of a column.
-/

namespace Pseudocode.Text

/-- A text filled with blanks behind it. -/
def padRight (n : Nat) (s : String) : String :=
  s ++ String.ofList (List.replicate (n - s.length) ' ')

/-- A text filled with blanks before it. -/
def padLeft (n : Nat) (s : String) : String :=
  String.ofList (List.replicate (n - s.length) ' ') ++ s

end Pseudocode.Text
