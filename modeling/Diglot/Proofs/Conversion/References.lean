import Diglot.Expression
import Diglot.Proofs.Conversion.Captures
import Diglot.Proofs.Conversion.Strictness

/-!
# References under strict accuracy

Strict accuracy makes every reference of the written pattern come after the end of the capture that it
means. It does not make the capture take part: where an alternative leaves it out, the host takes the
reference to match nothing.
-/

namespace Diglot

open Emitted

/-- The settings are as strict as the options. -/
theorem strict_of_normalize {o : Options} {s : Settings} (h : o.normalize = .ok s) :
    s.strict = o.strict := by
  have hall : o.normalize = (fun s : Settings => { s with strict := o.strict }) <$> o.normalize :=
    normalize_strict o o.strict
  rw [h] at hall
  exact congrArg Settings.strict (Except.ok.inj hall)

end Diglot
