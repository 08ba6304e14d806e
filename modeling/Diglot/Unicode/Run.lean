/-!
# Runs of code points

Tables of code points are lists of runs. A run takes every `step`-th code point from `first` to
`last`, so an alphabet that alternates between capital and small letters is one run of step two. Most
runs have step one and are given by the gaps between them (`ofGaps`).
-/

namespace Diglot.Unicode

/-- The code points `first`, `first + step`, … up to `last`. -/
structure Run where
  first : Nat
  last : Nat
  step : Nat
  deriving DecidableEq, Repr

/-- The runs that begin after the first `n` code points: some are left out, some are taken, some are
left out again, and so on. The list says how many. -/
def runsFrom (n : Nat) : List Nat → List Run
  | gap :: size :: rest => ⟨n + gap, n + gap + size - 1, 1⟩ :: runsFrom (n + gap + size) rest
  | _ => []

/-- Runs of step one, by the sizes of the gaps before them and their own sizes. -/
def ofGaps (sizes : List Nat) : List Run :=
  runsFrom 0 sizes

def Run.contains (r : Run) (n : Nat) : Bool :=
  r.first ≤ n && n ≤ r.last && (n - r.first) % r.step == 0

def inRuns (runs : List Run) (c : Char) : Bool :=
  runs.any (·.contains c.toNat)

end Diglot.Unicode
