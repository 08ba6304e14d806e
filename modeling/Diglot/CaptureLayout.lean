/-!
# Capture layouts

Which captures of a written pattern the user does not see, and which are reported under another one.
All indices count the captures of the written pattern from 1 in opening order.

A layout keeps its indices in ascending order and without repetition, so two layouts that say the
same are equal.
-/

namespace Diglot

/-- Puts a number into an ascending list, unless it is there. -/
def insertAscending (n : Nat) : List Nat → List Nat
  | [] => [n]
  | m :: ms =>
    if n < m then n :: m :: ms else if n = m then m :: ms else m :: insertAscending n ms

@[simp] theorem mem_insertAscending {k n : Nat} {ms : List Nat} :
    k ∈ insertAscending n ms ↔ k = n ∨ k ∈ ms := by
  induction ms with
  | nil => simp [insertAscending]
  | cons m ms ih =>
    simp only [insertAscending]
    split
    · simp
    · split
      · next h => subst h; simp
      · simp only [List.mem_cons, ih]
        grind

/-- The hidden captures of a written pattern and the captures that are reported under others. -/
structure CaptureLayout where
  /-- The captures that the user does not see. -/
  hidden : List Nat := []
  /-- A capture, and the captures that are reported under it. -/
  transfers : List (Nat × List Nat) := []
  deriving DecidableEq, Repr

namespace CaptureLayout

/-- Whether every capture is reported as it is. -/
def isEmpty (l : CaptureLayout) : Bool :=
  l.hidden.isEmpty && l.transfers.isEmpty

def hide (l : CaptureLayout) (i : Nat) : CaptureLayout :=
  { l with hidden := insertAscending i l.hidden }

def insertTransfer (destination source : Nat) : List (Nat × List Nat) → List (Nat × List Nat)
  | [] => [(destination, [source])]
  | (d, sources) :: rest =>
    if destination < d then (destination, [source]) :: (d, sources) :: rest
    else if destination = d then (d, insertAscending source sources) :: rest
    else (d, sources) :: insertTransfer destination source rest

/-- Reports `source` under `destination`. -/
def transfer (l : CaptureLayout) (destination source : Nat) : CaptureLayout :=
  { l with transfers := insertTransfer destination source l.transfers }

/-- The capture that `source` is reported under. -/
def destinationOf (l : CaptureLayout) (source : Nat) : Option Nat :=
  (l.transfers.find? fun (_, sources) => sources.contains source).map (·.1)

/-- The layout of a pattern whose captures have new numbers. A capture without a new number is left
out. -/
def renumber (l : CaptureLayout) (f : Nat → Option Nat) : CaptureLayout :=
  let hidden := (l.hidden.filterMap f).foldl hide {}
  l.transfers.foldl (fun found (destination, sources) =>
    match f destination with
    | none => found
    | some d => (sources.filterMap f).foldl (·.transfer d ·) found) hidden

end CaptureLayout

end Diglot
