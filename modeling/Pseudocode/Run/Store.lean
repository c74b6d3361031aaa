import Pseudocode.Tree.Basic

/-!
# Stores

A store holds the values of variables. `get?_set` says what setting a variable does.
-/

namespace Pseudocode

/-- Variables and their values, in the order in which the variables were first set. -/
structure Store where
  entries : List (String × Tree)

namespace Store

/-- The store without variables. -/
def empty : Store :=
  ⟨[]⟩

/-- The value that a list of entries has for a name. -/
def lookUp (x : String) : List (String × Tree) → Option Tree
  | [] => none
  | (y, v) :: rest => if y = x then some v else lookUp x rest

/-- Entries with a new value for a name, in its old place if it has one. -/
def put (x : String) (v : Tree) : List (String × Tree) → List (String × Tree)
  | [] => [(x, v)]
  | (y, w) :: rest => if y = x then (y, v) :: rest else (y, w) :: put x v rest

/-- The value of a variable. -/
def get? (σ : Store) (x : String) : Option Tree :=
  lookUp x σ.entries

/-- A store in which a variable has a new value. -/
def set (σ : Store) (x : String) (v : Tree) : Store :=
  ⟨put x v σ.entries⟩

theorem lookUp_put (x y : String) (v : Tree) (l : List (String × Tree)) :
    lookUp y (put x v l) = if x = y then some v else lookUp y l := by
  induction l with
  | nil => simp [put, lookUp]
  | cons e rest ih =>
    obtain ⟨z, w⟩ := e
    by_cases hz : z = x
    · by_cases hy : x = y <;> simp [put, lookUp, hz, hy]
    · by_cases hy : z = y
      · subst hy
        simp [put, lookUp, hz, Ne.symm hz]
      · simp [put, lookUp, hz, hy, ih]

/-- A variable that was set has its new value, and all others have their old ones. -/
theorem get?_set (σ : Store) (x y : String) (v : Tree) :
    (σ.set x v).get? y = if x = y then some v else σ.get? y :=
  lookUp_put x y v σ.entries

end Store

end Pseudocode
