import Diglot.Core.Tree
import Diglot.Source.Tree.Report

/-!
# Core trees in reports

A core tree as a term.
-/

namespace Diglot.Core

open Text

def Builtin.report : Builtin → String
  | digit => "Digit"
  | word => "Word"
  | space => "Space"

def Assertion.report : Assertion → String
  | stringStart => "StringStart"
  | stringEnd => "StringEnd"
  | wordBoundary negated => Term.record "WordBoundary" [("negated", Term.bool negated)]

mutual

def CharClass.report : CharClass → String
  | .mk negated items ignoreCase =>
    Term.record "Class" [
      ("negated", Term.bool negated), ("items", Term.list (ClassItem.reportAll items)),
      ("ignore_case", Term.bool ignoreCase)]

def ClassItem.report : ClassItem → String
  | .char c => Term.apply "Char" [quoteChar c]
  | .range a b => Term.apply "Range" [quoteChar a, quoteChar b]
  | .property name negated =>
    Term.record "Property" [("name", quoteText name), ("negated", Term.bool negated)]
  | .builtin kind negated =>
    Term.record "Builtin" [("kind", kind.report), ("negated", Term.bool negated)]
  | .nested cls => Term.apply "Nested" [cls.report]
  | .intersection operands => Term.apply "Intersection" [Term.list (CharClass.reportAll operands)]

def ClassItem.reportAll : List ClassItem → List String
  | [] => []
  | i :: is => i.report :: ClassItem.reportAll is

def CharClass.reportAll : List CharClass → List String
  | [] => []
  | c :: cs => c.report :: CharClass.reportAll cs

end

namespace Node

mutual

/-- A core tree as a term. -/
def report : Node → String
  | empty => "Empty"
  | literal c ignoreCase =>
    Term.record "Literal" [("value", quoteChar c), ("ignore_case", Term.bool ignoreCase)]
  | dot all => Term.record "Dot" [("dot_all", Term.bool all)]
  | cls c => Term.apply "Class" [c.report]
  | sequence ns => Term.apply "Sequence" [Term.list (reportAll ns)]
  | alternation ns => Term.apply "Alternation" [Term.list (reportAll ns)]
  | capture number name hidden origin body =>
    Term.record "Capture" [
      ("number", Term.nat number), ("name", Term.option quoteText name),
      ("hidden", Term.bool hidden), ("origin", Term.option Term.nat origin),
      ("body", body.report)]
  | group body => Term.apply "Group" [body.report]
  | atomic body => Term.apply "Atomic" [body.report]
  | look l body => Term.record "LookAround" (l.reportFields ++ [("body", body.report)])
  | repeated body q => Term.record "Quantified" (("body", body.report) :: q.reportFields)
  | assertion a => Term.apply "Assertion" [a.report]
  | backreference targets ignoreCase =>
    Term.record "Backreference" [
      ("targets", Term.list (targets.map Term.nat)), ("ignore_case", Term.bool ignoreCase)]
  | recursion target => Term.record "Recursion" [("target", Term.nat target)]

def reportAll : List Node → List String
  | [] => []
  | n :: ns => n.report :: reportAll ns

end

end Node

end Diglot.Core
