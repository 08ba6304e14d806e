import Diglot.Host.Matcher
import Diglot.Host.Tree.Reader

/-!
# Host regular expressions

A compiled host pattern, and the search for its leftmost match in a text.
-/

namespace Diglot.Host

/-- A host pattern that has been read, with its flags. -/
structure Regex where
  root : Node
  flags : Flags

/-- A match of a host pattern: the part of the text that it covers, and what the captures cover. -/
structure Found where
  span : Span
  captures : List (Option Span)
  deriving DecidableEq, Repr

/-- What a capture of a match covers; number 0 is the whole match. -/
def Found.capture (f : Found) (n : Nat) : Option Span :=
  if n = 0 then some f.span else f.captures.getD (n - 1) none

/-- Where the search for the next match begins: behind an empty match, one character is stepped
over. -/
def Found.resume (f : Found) : Nat :=
  if f.span.stop = f.span.start then f.span.stop + 1 else f.span.stop

/-- The first value that a function has among `count` numbers from `p` on. -/
def firstOf {α : Type} (f : Nat → Option α) : (count p : Nat) → Option α
  | 0, _ => none
  | count + 1, p =>
    match f p with
    | some a => some a
    | none => firstOf f count (p + 1)

theorem firstOf_eq_findSome? {α : Type} (f : Nat → Option α) (count p : Nat) :
    firstOf f count p = (List.range' p count).findSome? f := by
  induction count generalizing p with
  | zero => rfl
  | succ count ih =>
    rw [List.range'_succ, List.findSome?_cons, firstOf]
    cases f p with
    | none => exact ih (p + 1)
    | some a => rfl

namespace Regex

/-- The regular expression of a pattern and flag letters, unless the host refuses the pattern. -/
def compile? (pattern flags : List Char) : Option Regex := do
  let flags := Flags.ofLetters flags
  let root ← Node.read? flags.grammar false pattern
  return { root, flags }

def matchAt (r : Regex) (text : Array Char) (p : Nat) : Option Found :=
  let start : Thread := ⟨p, List.replicate r.root.captures.length none⟩
  (r.root.matcher ⟨r.flags.grammar, text⟩ r.flags.mode .forward start some).map fun t =>
    ⟨⟨p, t.position⟩, t.captures⟩

/-- The match with the least start, at or after a position. -/
def search (r : Regex) (text : Array Char) (p : Nat) : Option Found :=
  firstOf (r.matchAt text) (text.size + 1 - p) p

end Regex

end Diglot.Host
