import Diglot.Text.Digits
import Diglot.Unicode.Case

/-!
# Case variants

The characters that a character stands for when case is ignored and the host is not told so: they
have to be written out. `rangeVariants` gives the variants of a whole range that lie outside it, as
ranges.
-/

namespace Diglot.Unicode

/-- The only element of a list. -/
def single? {α : Type} : List α → Option α
  | [a] => some a
  | _ => none

/-- An ascending list of characters without repetition, from any list. -/
def sortedChars (cs : List Char) : List Char :=
  (cs.mergeSort (· ≤ ·)).eraseReps

/-- The other-case forms of a character, ascending. Mappings to several characters do not count. -/
def caseVariants (c : Char) : List Char :=
  let capital := single? (upper c)
  let small := capital.bind fun u => single? (lower u)
  sortedChars (([single? (lower c), capital, small].filterMap id).filter (· != c))

def hasCase (c : Char) : Bool :=
  !(caseVariants c).isEmpty

def charRange (a b : Char) : List Char :=
  (List.range' a.toNat (b.toNat + 1 - a.toNat)).filterMap Text.charOf?

/-- Neighbouring characters of an ascending list joined to ranges. -/
def joinRanges : List Char → List (Char × Char)
  | [] => []
  | c :: cs =>
    match joinRanges cs with
    | (first, last) :: rest =>
      if c.toNat + 1 = first.toNat then (c, last) :: rest else (c, c) :: (first, last) :: rest
    | [] => [(c, c)]

/-- The case variants of the characters from `a` to `b` that lie outside, as ranges in ascending
order. -/
def rangeVariants (a b : Char) : List (Char × Char) :=
  joinRanges (sortedChars
    (((charRange a b).flatMap caseVariants).filter fun v => !(a ≤ v && v ≤ b)))

end Diglot.Unicode
