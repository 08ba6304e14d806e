/-!
# Quantifiers

How often a part of a pattern may repeat, and which number of repetitions is tried first.
-/

namespace Diglot

/-- The order in which numbers of repetitions are tried. -/
inductive RepeatKind where
  /-- Many first. -/
  | greedy
  /-- Few first. -/
  | lazy
  /-- Many, and never fewer once matched. -/
  | possessive
  deriving DecidableEq, Repr

/-- At least `min` and at most `max` repetitions; no `max` means no bound. -/
structure Quantifier where
  min : Nat
  max : Option Nat
  kind : RepeatKind
  deriving DecidableEq, Repr

end Diglot
