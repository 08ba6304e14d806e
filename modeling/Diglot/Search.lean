import Diglot.Host.Regex
import Diglot.Conversion

/-!
# Searching with an emulation plan

What an emulation plan makes of the matches that the host finds: a strategy chooses among them by
where they start, and hidden captures are left out or reported under others. The host is any
function from a position to the first match at or after it; positions count characters.
-/

namespace Diglot

open Host (Span Found)

/-- The host's search in one text. -/
abbrev HostSearch := Nat → Option Found

/-! ## Strategies -/

/-- Whether a match that starts at `p` counts in a search from `start`. -/
def Strategy.accepts (text : Array Char) (start p : Nat) : Strategy → Bool
  | searchStart => p = start
  | notSearchStart => p != start
  | lineOrSearchStart => p = start || p = 0 || text[p - 1]? = some '\n'
  | stringOrSearchStart => p = start || p = 0

/-- The first match at or after a position whose start is accepted. After a match that is not, the
search goes on one character behind its start. -/
def firstAccepted (search : HostSearch) (accepts : Nat → Bool) (size position : Nat) :
    Option Found :=
  match search position with
  | none => none
  | some found =>
    if accepts found.span.start then some found
    else if position ≤ found.span.start ∧ found.span.start < size then
      firstAccepted search accepts size (found.span.start + 1)
    else none
termination_by size - position

/-- The first match that counts in a search from `start`. A match that has to start there is looked
for only once. -/
def Strategy.find (text : Array Char) (search : HostSearch) (start : Nat) : Strategy → Option Found
  | searchStart => (search start).filter (·.span.start == start)
  | s => firstAccepted search (s.accepts text start) text.size start

namespace Emulation

/-- The first match that counts under a plan in a search from `start`. -/
def find (e : Emulation) (text : Array Char) (search : HostSearch) (start : Nat) : Option Found :=
  match e.strategy with
  | none => search start
  | some s => s.find text search start

/-! ## Captures -/

/-- The captures that are reported under a capture besides itself. If the plan says so twice, the
last word counts. -/
def sources (e : Emulation) (n : Nat) : List Nat :=
  (e.transfers.reverse.lookup n).getD []

/-- The numbers of the captures that the user sees, out of `count`. -/
def visible (e : Emulation) (count : Nat) : List Nat :=
  (List.range' 1 count).filter (!e.hidden.contains ·)

/-- What is reported for a visible capture: of those that took part in the match, what the one with
the highest number covers. -/
def report (e : Emulation) (found : Found) (n : Nat) : Option Span :=
  let taken := (n :: e.sources n).filterMap fun m => (found.capture m).map (m, ·)
  let last := taken.foldl (fun (best : Option (Nat × Span)) c =>
    match best with
    | some b => if b.1 ≤ c.1 then some c else some b
    | none => some c) none
  last.map (·.2)

end Emulation

/-! ## All matches -/

/-- All matches from a position on, one after the other. -/
def allFrom (find : HostSearch) (size position : Nat) : List Found :=
  match find position with
  | none => []
  | some found =>
    if position < found.resume ∧ found.resume ≤ size then
      found :: allFrom find size (found.resume)
    else [found]
termination_by size - position

end Diglot
