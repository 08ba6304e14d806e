import Diglot.Unicode.CaseTable

/-!
# Letter case

Upper and lower case of a character without regard to its neighbours, and its simple case folding.
A full mapping may give several characters: the capital form of the sharp s is two letters.
-/

namespace Diglot.Unicode

/-- Where the shifts send a character, if one of them covers it. -/
def shifted? (shifts : List Shift) (c : Char) : Option Char :=
  (shifts.find? (·.run.contains c.toNat)).map fun s =>
    Char.ofNat ((c.toNat : Int) + s.distance).toNat

/-- The full case mapping given by a table of expansions and a table of shifts. -/
def mapCase (expansions : List (Nat × List Nat)) (shifts : List Shift) (c : Char) : List Char :=
  match expansions.lookup c.toNat with
  | some cs => cs.map Char.ofNat
  | none => [(shifted? shifts c).getD c]

/-- The full lowercase mapping. -/
def lower (c : Char) : List Char :=
  mapCase lowerExpansions lowerShifts c

/-- The full uppercase mapping. -/
def upper (c : Char) : List Char :=
  mapCase upperExpansions upperShifts c

/-- The simple case folding: characters that differ only in case fold to the same character. -/
def fold (c : Char) : Char :=
  (shifted? foldShifts c).getD c

/-- The characters that some shift sends to a character. -/
def shiftedTo (shifts : List Shift) (c : Char) : List Char :=
  shifts.filterMap fun s =>
    let n := ((c.toNat : Int) - s.distance).toNat
    if s.run.contains n then some (Char.ofNat n) else none

/-- The characters with the same simple case folding as a character, their common folding first. -/
def foldedAlike (c : Char) : List Char :=
  fold c :: shiftedTo foldShifts (fold c)

/-- A text with every character in lower case. -/
def lowerText (cs : List Char) : List Char :=
  cs.flatMap lower

end Diglot.Unicode
