import Diglot.Source.Element

/-!
# Core trees

A core tree says in constructs of the host what a source pattern means. It has three constructs that
the host lacks, and which are removed from the written text later: atomic groups, possessive
quantifiers and recursion. Every leaf knows whether it ignores case, so there are no flag groups.
-/

namespace Diglot.Core

/-- The host's own shorthand classes. -/
inductive Builtin where
  | digit
  | word
  | space
  deriving DecidableEq, Repr

mutual

/-- A class of characters: the union of its items, or the complement of that. -/
inductive CharClass where
  | mk (negated : Bool) (items : List ClassItem) (ignoreCase : Bool)

inductive ClassItem where
  | char (c : Char)
  | range (first last : Char)
  /-- A property in the host's spelling. -/
  | property (name : String) (negated : Bool)
  | builtin (kind : Builtin) (negated : Bool)
  | nested (cls : CharClass)
  | intersection (operands : List CharClass)

end

instance : Inhabited CharClass := ⟨.mk false [] false⟩

instance : Inhabited ClassItem := ⟨.intersection []⟩

namespace CharClass

def negated : CharClass → Bool
  | mk n _ _ => n

def items : CharClass → List ClassItem
  | mk _ is _ => is

def ignoreCase : CharClass → Bool
  | mk _ _ i => i

/-- The union of the items, with case. -/
def of (items : List ClassItem) : CharClass := mk false items false

/-- Every character: blanks and the others. -/
def any : CharClass := of [.builtin .space false, .builtin .space true]

/-- Every character but the newline. -/
def notNewline : CharClass := mk true [.char '\n'] false

end CharClass

/-- Conditions on a position that the host can state. -/
inductive Assertion where
  | stringStart
  | stringEnd
  | wordBoundary (negated : Bool)
  deriving DecidableEq, Repr

inductive Node where
  | empty
  | literal (c : Char) (ignoreCase : Bool)
  /-- Without `all`, every character but the newline. -/
  | dot (all : Bool)
  | cls (c : CharClass)
  | sequence (nodes : List Node)
  | alternation (nodes : List Node)
  /-- A capture of the source group `number`. A hidden capture is a copy of the group `origin` and
  is kept from the user. -/
  | capture (number : Nat) (name : Option String) (hidden : Bool) (origin : Option Nat)
      (body : Node)
  | group (body : Node)
  | atomic (body : Node)
  | look (l : Look) (body : Node)
  | repeated (body : Node) (q : Quantifier)
  | assertion (a : Assertion)
  /-- Refers to one of the source groups; without targets it never matches. -/
  | backreference (targets : List Nat) (ignoreCase : Bool)
  /-- Recursion into the whole pattern (target 0) or into an enclosing group. -/
  | recursion (target : Nat)
  deriving Inhabited

namespace Node

def isEmpty : Node → Bool
  | empty => true
  | _ => false

def isAlternation : Node → Bool
  | alternation _ => true
  | _ => false

/-- The parts one after the other. Empty parts are dropped, and a single part stands for itself. -/
def ofSequence (nodes : List Node) : Node :=
  match nodes.filter (!·.isEmpty) with
  | [] => empty
  | [n] => n
  | ns => sequence ns

/-- The parts as alternatives; a single part stands for itself. -/
def ofAlternatives : List Node → Node
  | [] => empty
  | [n] => n
  | ns => alternation ns

/-- A literal that matches as it is written. -/
def char (c : Char) : Node := literal c false

/-- A look at what follows. -/
def ahead (negated : Bool) (body : Node) : Node := look ⟨false, negated⟩ body

/-- A look at what comes before. -/
def behind (negated : Bool) (body : Node) : Node := look ⟨true, negated⟩ body

/-- The parts directly below a node. -/
def children : Node → List Node
  | sequence ns | alternation ns => ns
  | capture _ _ _ _ body | group body | atomic body | look _ body | repeated body _ => [body]
  | _ => []

mutual

/-- The node and everything below it, each node before its parts. -/
def walk : Node → List Node
  | sequence ns => sequence ns :: walkAll ns
  | alternation ns => alternation ns :: walkAll ns
  | capture k name hidden origin body => capture k name hidden origin body :: body.walk
  | group body => group body :: body.walk
  | atomic body => atomic body :: body.walk
  | look l body => look l body :: body.walk
  | repeated body q => repeated body q :: body.walk
  | n => [n]

def walkAll : List Node → List Node
  | [] => []
  | n :: ns => n.walk ++ walkAll ns

end

def isRecursion : Node → Bool
  | recursion _ => true
  | _ => false

def hasRecursion (n : Node) : Bool :=
  n.walk.any isRecursion

end Node

end Diglot.Core
