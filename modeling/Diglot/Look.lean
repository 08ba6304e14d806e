/-!
# Looks around

Both dialects can ask whether something stands before or after a position without moving from it.
-/

namespace Diglot

/-- A look at the text around a position. -/
structure Look where
  behind : Bool
  negated : Bool
  deriving DecidableEq, Repr

end Diglot
