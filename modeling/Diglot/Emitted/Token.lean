/-!
# Tokens of written patterns

A written pattern is host text with three extensions: atomic groups, possessive quantifiers and
recursion markers. Its tokens keep their text, so that a reduction can change some and copy the
rest.
-/

namespace Diglot.Emitted

/-- The group that a recursion marker names. -/
inductive GroupName where
  | number (n : Nat)
  | name (s : List Char)
  deriving DecidableEq, Repr

/-- What a token of a written pattern does. -/
inductive Kind where
  /-- `(` or `(?<name>` -/
  | captureOpen (name : Option (List Char))
  /-- `(?:` or a modifier group such as `(?i:` -/
  | groupOpen
  /-- `(?>` -/
  | atomicOpen
  /-- `(?=`, `(?!`, `(?<=` or `(?<!` -/
  | lookOpen
  /-- `)` -/
  | close
  /-- `|` -/
  | alternation
  /-- A quantifier with its suffix -/
  | quantifier (possessive : Bool)
  /-- A backreference by number -/
  | backreference (n : Nat)
  /-- `(?R=N)`: recursion into the whole pattern -/
  | recursion (depth : Nat)
  /-- `\g<ref&R=N>`: recursion into a group -/
  | groupRecursion (target : GroupName) (depth : Nat)
  /-- `^`, `$`, `\b` or `\B` -/
  | assertion
  /-- Anything that matches one character -/
  | atom
  deriving DecidableEq, Repr

namespace Kind

def isOpen : Kind → Bool
  | captureOpen _ | groupOpen | atomicOpen | lookOpen => true
  | _ => false

def isMarker : Kind → Bool
  | recursion _ | groupRecursion _ _ => true
  | _ => false

def depth : Kind → Nat
  | recursion depth | groupRecursion _ depth => depth
  | _ => 0

end Kind

structure Token where
  kind : Kind
  text : List Char
  deriving DecidableEq, Repr

end Diglot.Emitted
