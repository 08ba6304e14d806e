import Diglot.Source.Element

/-!
# Source trees

A source pattern as a tree. Reading gives every reference its place in the text and leaves its
target open; `Diglot.Source.Groups` numbers the groups and `Diglot.Source.Resolution` fills the
targets in.
-/

namespace Diglot.Source

mutual

/-- A bracketed class: the union of its items, or the complement of that. -/
inductive CharClass where
  | mk (negated : Bool) (items : List ClassItem)

inductive ClassItem where
  | char (c : Char)
  | range (first last : Char)
  | set (s : CharSet)
  | nested (cls : CharClass)
  /-- `a&&b&&c`: the characters that all operands have in common. -/
  | intersection (operands : List CharClass)

end

instance : Inhabited CharClass := ⟨.mk false []⟩

instance : Inhabited ClassItem := ⟨.intersection []⟩

namespace CharClass

def negated : CharClass → Bool
  | mk n _ => n

def items : CharClass → List ClassItem
  | mk _ is => is

end CharClass

/-- What a pair of parentheses does. -/
inductive GroupKind where
  /-- Remembers what it matched. The number is 0 until groups are numbered. -/
  | capture (number : Nat) (name : Option String)
  /-- `(?:…)` -/
  | plain
  /-- `(?>…)` -/
  | atomic
  | look (l : Look)
  /-- `(?imx-imx:…)`, or a directive together with what it governs. -/
  | flags (change : FlagChange)
  deriving DecidableEq, Repr

inductive Node where
  | empty
  | literal (c : Char)
  | dot
  | sequence (nodes : List Node)
  | alternation (nodes : List Node)
  | set (s : CharSet)
  | charClass (cls : CharClass)
  | group (kind : GroupKind) (body : Node)
  | repeated (body : Node) (q : Quantifier)
  | assertion (a : Assertion)
  /-- A backreference written at `place`, and the groups that it may refer to. -/
  | backreference (place : Nat) (ref : Reference) (targets : List Nat)
  /-- A subroutine call written at `place`; target 0 is the whole pattern. -/
  | subroutine (place : Nat) (ref : Reference) (target : Nat)
  /-- `\K` -/
  | keep
  /-- `\R` -/
  | lineBreak
  /-- `\X` -/
  | grapheme
  /-- `(?~…)` -/
  | absent (body : Node)
  deriving Inhabited

namespace Node

/-- The parts one after the other; a single part stands for itself. -/
def ofSequence : List Node → Node
  | [] => empty
  | [n] => n
  | ns => sequence ns

/-- The parts as alternatives; a single part stands for itself. -/
def ofAlternatives : List Node → Node
  | [] => empty
  | [n] => n
  | ns => alternation ns

end Node

end Diglot.Source
