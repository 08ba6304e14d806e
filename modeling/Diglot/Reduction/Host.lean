import Diglot.Reduction.Atomic
import Diglot.Reduction.Possessive
import Diglot.Reduction.Recursion

/-!
# Reduction to host syntax

The three extensions are removed one after the other: recursion first, because it copies parts of
the pattern, then possessive quantifiers, which become atomic groups, and atomic groups last.
-/

namespace Diglot.Reduction

/-- A written pattern without extensions. -/
def toHost (p : Draft) : Except Error Draft := do
  let p ← unrollRecursion p
  let p ← groupPossessive p
  unfoldAtomic p

end Diglot.Reduction
