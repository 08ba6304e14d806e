import Diglot.Core.Tree
import Diglot.Unicode.Variants

/-!
# Case modes

Whether a tree ignores case everywhere, nowhere or in parts. Only leaves for which case makes a
difference are asked.
-/

namespace Diglot.Emitted

open Diglot.Core Unicode

/-- Properties whose members change under case folding. -/
def casedProperties : List String := [
  "Lu", "Ll", "Lt", "LC", "Uppercase_Letter", "Lowercase_Letter", "Titlecase_Letter",
  "Cased_Letter", "Uppercase", "Lowercase", "Cased"]

/-- Whether there is a character with case between `a` and `b`. A wide range always has one. -/
def rangeHasCase (a b : Char) : Bool :=
  b < a || 0x100 < b.toNat - a.toNat || (charRange a b).any hasCase

mutual

/-- Whether case makes a difference to a class. -/
def classHasCase : CharClass → Bool
  | .mk _ items _ => anyItemHasCase items

def itemHasCase : ClassItem → Bool
  | .char c => hasCase c
  | .range a b => rangeHasCase a b
  | .property name _ => casedProperties.contains name
  | .builtin _ _ => false
  | .nested cls => classHasCase cls
  | .intersection operands => anyClassHasCase operands

def anyItemHasCase : List ClassItem → Bool
  | [] => false
  | i :: is => itemHasCase i || anyItemHasCase is

def anyClassHasCase : List CharClass → Bool
  | [] => false
  | c :: cs => classHasCase c || anyClassHasCase cs

end

/-- Whether a leaf ignores case; none if case makes no difference to the node. -/
def leafCase? : Node → Option Bool
  | .literal c ignoreCase => if hasCase c then some ignoreCase else none
  | .cls c => if classHasCase c then some c.ignoreCase else none
  | .backreference targets ignoreCase => if targets.isEmpty then none else some ignoreCase
  | _ => none

/-- Where a tree ignores case. -/
inductive CaseMode where
  /-- Nowhere. -/
  | sensitive
  /-- Wherever it makes a difference. -/
  | insensitive
  /-- In parts. -/
  | mixed
  deriving DecidableEq, Repr

def caseMode (root : Node) : CaseMode :=
  let cases := root.walk.filterMap leafCase?
  if !cases.contains true then .sensitive
  else if cases.contains false then .mixed
  else .insensitive

/-- Whether the tree has dots and all of them match a newline too. -/
def allDotsMatchNewline (root : Node) : Bool :=
  let dots := root.walk.filterMap fun
    | .dot all => some all
    | _ => none
  !dots.isEmpty && dots.all id

end Diglot.Emitted
