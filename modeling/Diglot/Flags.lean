import Diglot.Error

/-!
# Pattern flags

The flags that a source pattern as a whole is read with, written as letters.
-/

namespace Diglot

/-- The flags of a source pattern. -/
structure Flags where
  /-- `i`: letters match in either case. -/
  ignoreCase : Bool := false
  /-- `m`: the dot matches a newline too. -/
  dotAll : Bool := false
  /-- `x`: blanks and line comments do not count. -/
  extended : Bool := false
  /-- `D`: digits are ASCII. -/
  asciiDigit : Bool := false
  /-- `S`: blanks are ASCII. -/
  asciiSpace : Bool := false
  /-- `W`: word characters are ASCII. -/
  asciiWord : Bool := false
  deriving DecidableEq, Repr

namespace Flags

def add (f : Flags) : Char → Except Error Flags
  | 'i' => .ok { f with ignoreCase := true }
  | 'm' => .ok { f with dotAll := true }
  | 'x' => .ok { f with extended := true }
  | 'D' => .ok { f with asciiDigit := true }
  | 'S' => .ok { f with asciiSpace := true }
  | 'W' => .ok { f with asciiWord := true }
  | c => .error (.unknownFlag c)

/-- The flags that a text sets. The first letter that is no flag is an error. -/
def ofString (s : String) : Except Error Flags :=
  s.toList.foldlM add {}

/-- The letters of the flags that are set, in the order `imxDSW`. -/
def letters (f : Flags) : String :=
  (if f.ignoreCase then "i" else "") ++ (if f.dotAll then "m" else "")
    ++ (if f.extended then "x" else "") ++ (if f.asciiDigit then "D" else "")
    ++ (if f.asciiSpace then "S" else "") ++ (if f.asciiWord then "W" else "")

end Flags

end Diglot
