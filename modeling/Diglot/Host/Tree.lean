import Diglot.Host.CharSet
import Diglot.Look

/-!
# Trees of host patterns

A host pattern as a tree. Besides the constructs of the host a tree can hold atomic groups, which
commit to the first way in which their body matches: with them the tree can also say what a written
pattern means before its atomic groups are unfolded.
-/

namespace Diglot.Host

open Unicode (CodeText)

/-- Conditions on a position that need no text of their own. -/
inductive Edge where
  /-- `^` -/
  | lineStart
  /-- `$` -/
  | lineEnd
  /-- `\b` -/
  | wordBoundary
  /-- `\B` -/
  | nonWordBoundary
  deriving DecidableEq, Repr

inductive Node where
  | empty
  /-- The dot -/
  | any
  /-- One character of a set, or outside it -/
  | set (negated : Bool) (s : CharSet)
  /-- A text, if it is a member of a set -/
  | member (t : CodeText) (s : CharSet)
  | edge (e : Edge)
  /-- What one of the captures has matched -/
  | backreference (numbers : List Nat)
  | capture (number : Nat) (name : Option (List Char)) (body : Node)
  /-- The first way in which the body matches, and no other -/
  | atomic (body : Node)
  | modified (change : ModeChange) (body : Node)
  | look (l : Look) (body : Node)
  | repeated (min : Nat) (max : Option Nat) (isLazy : Bool) (body : Node)
  | sequence (first second : Node)
  | alternation (first second : Node)
  deriving DecidableEq, Repr, Inhabited

namespace Node

/-- One after the other. -/
def ofSequence : List Node → Node
  | [] => empty
  | [n] => n
  | n :: ns => sequence n (ofSequence ns)

/-- One or the other, the first one preferred. -/
def ofAlternatives : List Node → Node
  | [] => empty
  | [n] => n
  | n :: ns => alternation n (ofAlternatives ns)

/-- A member of a set: the longest texts come first, then single characters, and nothing at all
comes last. -/
def ofSet (s : CharSet) : Node :=
  let (longer, nothing) := s.candidates.partition (!·.isEmpty)
  ofAlternatives
    ((longer.mergeSort fun a b => b.length ≤ a.length).map (member · s)
      ++ [set false s] ++ nothing.map (member · s))

/-- The captures of a tree with their names, in opening order. -/
def captures : Node → List (Nat × Option (List Char))
  | empty | any | set _ _ | member _ _ | edge _ | backreference _ => []
  | capture number name body => (number, name) :: body.captures
  | atomic body | modified _ body | look _ body | repeated _ _ _ body => body.captures
  | sequence a b | alternation a b => a.captures ++ b.captures

def names (n : Node) : List (List Char) :=
  n.captures.filterMap (·.2)

/-- Whether no two captures that can both take part in a match have the same name. -/
def hasDistinctNames : Node → Bool
  | empty | any | set _ _ | member _ _ | edge _ | backreference _ => true
  | capture _ name body => body.hasDistinctNames && name.all (!body.names.contains ·)
  | atomic body | modified _ body | look _ body | repeated _ _ _ body => body.hasDistinctNames
  | sequence a b => a.hasDistinctNames && b.hasDistinctNames && a.names.all (!b.names.contains ·)
  | alternation a b => a.hasDistinctNames && b.hasDistinctNames

end Node

end Diglot.Host
