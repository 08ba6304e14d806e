import Diglot.Host.Tree

/-!
# Tokens of host patterns

A class is several tokens: its brackets, its members and the operators between them.
-/

namespace Diglot.Host

/-- What opens a group. -/
inductive Opener where
  /-- `(` or `(?<name>` -/
  | capture (name : Option (List Char))
  /-- `(?:` -/
  | plain
  /-- `(?>`, an extension -/
  | atomic
  /-- `(?=`, `(?!`, `(?<=` or `(?<!` -/
  | look (l : Look)
  /-- `(?i:`, `(?-i:` and the like -/
  | modified (change : ModeChange)
  deriving DecidableEq, Repr

inductive Token where
  /-- A code point that stands for itself, inside a class or outside -/
  | code (n : Nat)
  /-- An escape that stands for a set, inside a class or outside -/
  | set (s : CharSet)
  | any
  | edge (e : Edge)
  /-- A backreference by number -/
  | numbered (n : Nat)
  /-- A backreference by name -/
  | named (s : List Char)
  | groupOpen (o : Opener)
  | groupClose
  | bar
  | quantifier (min : Nat) (max : Option Nat) (isLazy : Bool)
  | classOpen (negated : Bool)
  | classClose
  /-- `-` in a class -/
  | hyphen
  /-- `--` in a class of the grammar with sets -/
  | difference
  /-- `&&` in a class of the grammar with sets -/
  | intersection
  deriving DecidableEq, Repr

/-- The name that a token gives to a capture, if it opens one. -/
def Token.captureName? : Token → Option (Option (List Char))
  | groupOpen (.capture name) => some name
  | _ => none

/-- How many classes are open after a token. -/
def Token.classDepth (depth : Nat) : Token → Nat
  | classOpen _ => depth + 1
  | classClose => depth - 1
  | _ => depth

end Diglot.Host
