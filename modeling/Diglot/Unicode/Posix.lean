/-!
# POSIX bracket classes

What the names in brackets such as `[:alpha:]` stand for. Each name has a definition over all of
Unicode and one over ASCII.
-/

namespace Diglot.Unicode

/-- A part of a POSIX class: a range of characters or a property by its host name. -/
inductive PosixPart where
  | range (first last : Char)
  | property (name : String)
  deriving DecidableEq, Repr

/-- A POSIX class: the union of its parts, or the complement of that. -/
structure PosixClass where
  negated : Bool := false
  parts : List PosixPart
  /-- The host has exactly this class, and not only one that comes close. -/
  exact : Bool := true
  deriving DecidableEq, Repr

open PosixPart

/-- The hexadecimal digits, which are the same in both definitions. -/
def posixHex : PosixClass := { parts := [range '0' '9', range 'A' 'F', range 'a' 'f'] }

/-- The ASCII characters, which are the same in both definitions. -/
def posixAscii : PosixClass := { parts := [range '\x00' '\x7f'] }

/-- The ASCII definition of a POSIX name. -/
def asciiPosix? : String → Option PosixClass
  | "alnum" => some { parts := [range '0' '9', range 'A' 'Z', range 'a' 'z'] }
  | "alpha" => some { parts := [range 'A' 'Z', range 'a' 'z'] }
  | "ascii" => some posixAscii
  | "blank" => some { parts := [range '\t' '\t', range ' ' ' '] }
  | "cntrl" => some { parts := [range '\x00' '\x1f', range '\x7f' '\x7f'] }
  | "digit" => some { parts := [range '0' '9'] }
  | "graph" => some { parts := [range '!' '~'] }
  | "lower" => some { parts := [range 'a' 'z'] }
  | "print" => some { parts := [range ' ' '~'] }
  | "punct" =>
    some { parts := [range '!' '/', range ':' '@', range '[' '\x60', range '\x7b' '~'] }
  | "space" => some { parts := [range '\t' '\r', range ' ' ' '] }
  | "upper" => some { parts := [range 'A' 'Z'] }
  | "word" => some { parts := [range '0' '9', range 'A' 'Z', range '_' '_', range 'a' 'z'] }
  | "xdigit" => some posixHex
  | _ => none

/-- The Unicode definition of a POSIX name. -/
def unicodePosix? : String → Option PosixClass
  | "alnum" => some { parts := [property "Alphabetic", property "Nd"] }
  | "alpha" => some { parts := [property "Alphabetic"] }
  | "ascii" => some posixAscii
  | "blank" => some { parts := [property "Zs", range '\t' '\t'] }
  | "cntrl" => some { parts := [property "Cc"] }
  | "digit" => some { parts := [property "Nd"] }
  | "graph" =>
    some {
      negated := true
      parts := [property "White_Space", property "Cc", property "Cn", property "Cs"]
      exact := false }
  | "lower" => some { parts := [property "Lowercase"] }
  | "print" =>
    some {
      negated := true
      parts := [property "Cc", property "Cn", property "Cs"]
      exact := false }
  | "punct" => some { parts := [property "P"] }
  | "space" => some { parts := [property "White_Space"] }
  | "upper" => some { parts := [property "Uppercase"] }
  | "word" => some { parts := [property "L", property "M", property "N", property "Pc"] }
  | "xdigit" => some posixHex
  | _ => none

/-- The class behind a POSIX name, if the name is known. -/
def posixClass? (ascii : Bool) (name : String) : Option PosixClass :=
  if ascii then asciiPosix? name else unicodePosix? name

end Diglot.Unicode
