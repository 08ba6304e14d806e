import Diglot.Source.Tree

/-!
# Leading search-start anchors

The host has no anchor for the place where a search began. If a pattern begins with such an anchor,
it is taken off the pattern, and the matches that the rest finds are chosen by where they start. How
they are chosen is a strategy.
-/

namespace Diglot

/-- Which matches count, by where they start. -/
inductive Strategy where
  /-- Those that start where the search started. -/
  | searchStart
  /-- Those that do not start where the search started. -/
  | notSearchStart
  /-- Those that start where the search or a line started. -/
  | lineOrSearchStart
  /-- Those that start where the search or the text started. -/
  | stringOrSearchStart
  deriving DecidableEq, Repr

def Strategy.name : Strategy → String
  | searchStart => "search_start"
  | notSearchStart => "not_search_start"
  | lineOrSearchStart => "line_or_search_start"
  | stringOrSearchStart => "string_or_search_start"

namespace Source.Node

/-- Whether the node is a choice between the start of a line and the start of the search. -/
def isLineOrSearchStart : Node → Bool
  | alternation [assertion .lineStart, assertion .searchStart] => true
  | alternation [assertion .searchStart, assertion .lineStart] => true
  | _ => false

def isSearchStart : Node → Bool
  | assertion .searchStart => true
  | _ => false

mutual

/-- The strategy that the anchor at the front of a pattern asks for. An alternation has one only if
all its alternatives begin with the plain anchor. -/
def leadingStrategy? : Node → Option Strategy
  | assertion .searchStart => some .searchStart
  | group (.look ⟨false, true⟩) body => if body.isSearchStart then some .notSearchStart else none
  | group .plain body => if body.isLineOrSearchStart then some .lineOrSearchStart else none
  | group (.flags _) body => body.leadingStrategy?
  | group (.capture _ _) body => body.leadingStrategy?
  | alternation ns => if allSearchStart ns then some .searchStart else none
  | sequence (n :: _) => n.leadingStrategy?
  | _ => none

/-- Whether all alternatives begin with the plain anchor. -/
def allSearchStart : List Node → Bool
  | [] => true
  | n :: ns => n.leadingStrategy? == some .searchStart && allSearchStart ns

end

mutual

/-- The pattern without the anchor at its front. -/
def withoutAnchor : Node → Node
  | alternation ns => alternation (withoutAnchors ns)
  | sequence (n :: ns) => sequence (n.withoutAnchor :: ns)
  | sequence [] => sequence []
  | group (.flags change) body => group (.flags change) body.withoutAnchor
  | group (.capture k name) body => group (.capture k name) body.withoutAnchor
  | _ => empty

def withoutAnchors : List Node → List Node
  | [] => []
  | n :: ns => n.withoutAnchor :: withoutAnchors ns

end

/-- The strategy of a pattern, and the pattern without its leading anchor. With `singleline`, lines
start at the start of the text only. -/
def splitStrategy (singleline : Bool) (n : Node) : Option Strategy × Node :=
  match n.leadingStrategy? with
  | none => (none, n)
  | some .lineOrSearchStart =>
    (some (if singleline then .stringOrSearchStart else .lineOrSearchStart), n.withoutAnchor)
  | some s => (some s, n.withoutAnchor)

end Source.Node

end Diglot
