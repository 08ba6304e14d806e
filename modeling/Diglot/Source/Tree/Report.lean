import Diglot.Source.Tree
import Diglot.Text.Term

/-!
# Source trees in reports

A source tree as a term. The places of references are left out.
-/

namespace Diglot

open Text

def RepeatKind.report : RepeatKind → String
  | greedy => "Greedy"
  | lazy => "Lazy"
  | possessive => "Possessive"

def Quantifier.reportFields (q : Quantifier) : List (String × String) :=
  [("min", Term.nat q.min), ("max", Term.option Term.nat q.max), ("kind", q.kind.report)]

def Look.reportFields (l : Look) : List (String × String) :=
  [("behind", Term.bool l.behind), ("negated", Term.bool l.negated)]

namespace Source

def CharSet.report : CharSet → String
  | digit negated => Term.record "Digit" [("negated", Term.bool negated)]
  | word negated => Term.record "Word" [("negated", Term.bool negated)]
  | space negated => Term.record "Space" [("negated", Term.bool negated)]
  | hex negated => Term.record "Hex" [("negated", Term.bool negated)]
  | property name negated =>
    Term.record "Property" [("name", quoteText name), ("negated", Term.bool negated)]
  | posix name negated =>
    Term.record "Posix" [("name", quoteText name), ("negated", Term.bool negated)]
  | notNewline => "NotNewline"
  | any => "Any"

def Assertion.report : Assertion → String
  | lineStart => "LineStart"
  | lineEnd => "LineEnd"
  | stringStart => "StringStart"
  | stringEnd => "StringEnd"
  | stringEndNewline => "StringEndNewline"
  | searchStart => "SearchStart"
  | wordBoundary => "WordBoundary"
  | nonWordBoundary => "NonWordBoundary"

def Reference.report : Reference → String
  | number n => Term.apply "Number" [Term.nat n]
  | relative n => Term.apply "Relative" [toString n]
  | name s => Term.apply "Name" [quoteText s]

def InlineFlags.report (f : InlineFlags) : String :=
  Term.record "FlagSet" [
    ("ignore_case", Term.bool f.ignoreCase), ("dot_all", Term.bool f.dotAll),
    ("extended", Term.bool f.extended)]

def FlagChange.report (c : FlagChange) : String :=
  Term.record "FlagChange" [("enable", c.enable.report), ("disable", c.disable.report)]

def GroupKind.report : GroupKind → String
  | capture number name =>
    Term.record "Capture" [("number", Term.nat number), ("name", Term.option quoteText name)]
  | plain => "NonCapturing"
  | atomic => "Atomic"
  | look l => Term.record "LookAround" l.reportFields
  | flags change => Term.apply "Flags" [change.report]

mutual

def CharClass.report : CharClass → String
  | .mk negated items =>
    Term.record "CharClass" [
      ("negated", Term.bool negated), ("items", Term.list (ClassItem.reportAll items))]

def ClassItem.report : ClassItem → String
  | .char c => Term.apply "Char" [quoteChar c]
  | .range a b => Term.apply "Range" [quoteChar a, quoteChar b]
  | .set s => Term.apply "Set" [s.report]
  | .nested cls => Term.apply "Nested" [cls.report]
  | .intersection operands => Term.apply "Intersection" [Term.list (CharClass.reportAll operands)]

def ClassItem.reportAll : List ClassItem → List String
  | [] => []
  | i :: is => i.report :: ClassItem.reportAll is

def CharClass.reportAll : List CharClass → List String
  | [] => []
  | c :: cs => c.report :: CharClass.reportAll cs

end

namespace Node

mutual

/-- A source tree as a term. -/
def report : Node → String
  | empty => "Empty"
  | literal c => Term.apply "Literal" [quoteChar c]
  | dot => "Dot"
  | sequence ns => Term.apply "Sequence" [Term.list (reportAll ns)]
  | alternation ns => Term.apply "Alternation" [Term.list (reportAll ns)]
  | set s => Term.apply "Set" [s.report]
  | charClass cls => Term.apply "Class" [cls.report]
  | group kind body => Term.record "Group" [("kind", kind.report), ("body", body.report)]
  | repeated body q => Term.record "Quantified" (("body", body.report) :: q.reportFields)
  | assertion a => Term.apply "Assertion" [a.report]
  | backreference _ ref targets =>
    Term.record "Backreference" [
      ("reference", ref.report), ("targets", Term.list (targets.map Term.nat))]
  | subroutine _ ref target =>
    Term.record "Subroutine" [("reference", ref.report), ("target", Term.nat target)]
  | keep => "Keep"
  | lineBreak => "LineBreak"
  | grapheme => "Grapheme"
  | absent body => Term.apply "Absent" [body.report]

def reportAll : List Node → List String
  | [] => []
  | n :: ns => n.report :: reportAll ns

end

end Node

end Source

end Diglot
