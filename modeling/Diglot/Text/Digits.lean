/-!
# Numbers in texts

Digits in a radix, and numbers that have to stay below a bound.
-/

namespace Diglot.Text

/-- The value of a digit character; letters count from ten, in either case. -/
def digitValue (c : Char) : Option Nat :=
  if '0' ≤ c && c ≤ '9' then some (c.toNat - '0'.toNat)
  else if 'a' ≤ c && c ≤ 'z' then some (c.toNat - 'a'.toNat + 10)
  else if 'A' ≤ c && c ≤ 'Z' then some (c.toNat - 'A'.toNat + 10)
  else none

def isDigit (radix : Nat) (c : Char) : Bool :=
  (digitValue c).any (· < radix)

/-- The number that a digit string writes. -/
def ofDigits (radix : Nat) (cs : List Char) : Nat :=
  cs.foldl (fun n c => n * radix + (digitValue c).getD 0) 0

/-- The number below `bound` that a digit string writes, if it does. -/
def number? (radix bound : Nat) (cs : List Char) : Option Nat :=
  if cs.isEmpty || !cs.all (isDigit radix) then none
  else
    let n := ofDigits radix cs
    if n < bound then some n else none

/-- As `number?`, with an optional plus sign before the digits. -/
def signedNumber? (radix bound : Nat) : List Char → Option Nat
  | '+' :: cs => number? radix bound cs
  | cs => number? radix bound cs

/-- The character with a code point, unless it is a surrogate or too large. -/
def charOf? (n : Nat) : Option Char :=
  if h : n.isValidChar then some (Char.ofNatAux n h) else none

end Diglot.Text
