import Diglot.Look
import Diglot.Quantifier

/-!
# Elements of source patterns

The small parts of the source dialect that its tokens and its trees have in common.
-/

namespace Diglot.Source

/-- Named sets of characters. -/
inductive CharSet where
  /-- `\d` and `\D` -/
  | digit (negated : Bool)
  /-- `\w` and `\W` -/
  | word (negated : Bool)
  /-- `\s` and `\S` -/
  | space (negated : Bool)
  /-- `\h` and `\H`, the hexadecimal digits -/
  | hex (negated : Bool)
  /-- A Unicode property by name -/
  | property (name : String) (negated : Bool)
  /-- A POSIX bracket such as `[:alpha:]` -/
  | posix (name : String) (negated : Bool)
  /-- `\N` -/
  | notNewline
  /-- `\O` -/
  | any
  deriving DecidableEq, Repr

/-- Conditions on a position of the text. -/
inductive Assertion where
  /-- `^` -/
  | lineStart
  /-- `$` -/
  | lineEnd
  /-- `\A` -/
  | stringStart
  /-- `\z` -/
  | stringEnd
  /-- `\Z` -/
  | stringEndNewline
  /-- `\G` -/
  | searchStart
  /-- `\b` -/
  | wordBoundary
  /-- `\B` -/
  | nonWordBoundary
  deriving DecidableEq, Repr

/-- A group reference as it is written. -/
inductive Reference where
  | number (n : Nat)
  /-- Counted from the place of the reference; negative counts back. -/
  | relative (n : Int)
  | name (s : String)
  deriving DecidableEq, Repr

/-- The flags that a pattern can switch for a part of itself. -/
structure InlineFlags where
  /-- `i` -/
  ignoreCase : Bool := false
  /-- `m` -/
  dotAll : Bool := false
  /-- `x` -/
  extended : Bool := false
  deriving DecidableEq, Repr

/-- The letters of the flags that are set, in the order `imx`. -/
def InlineFlags.letters (f : InlineFlags) : String :=
  (if f.ignoreCase then "i" else "") ++ (if f.dotAll then "m" else "")
    ++ (if f.extended then "x" else "")

/-- Which flags a flag group switches on and which it switches off. -/
structure FlagChange where
  enable : InlineFlags := {}
  disable : InlineFlags := {}
  deriving DecidableEq, Repr

namespace FlagChange

/-- The change as it is written in a flag group. -/
def text (c : FlagChange) : String :=
  c.enable.letters ++ (if c.disable.letters.isEmpty then "" else "-" ++ c.disable.letters)

/-- The value of one flag after the change; switching off wins. -/
def apply (old on off : Bool) : Bool :=
  if off then false else if on then true else old

/-- Whether free spacing is on after the change. -/
def extended (c : FlagChange) (old : Bool) : Bool :=
  apply old c.enable.extended c.disable.extended

end FlagChange

end Diglot.Source
