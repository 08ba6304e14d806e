import Diglot.Core.CharClass
import Diglot.Core.SearchStart
import Diglot.Source.Pattern

/-!
# Lowering source trees

`Pattern.lower` gives the core tree of a source pattern. Anchors and shorthands get their host form,
flags move to the leaves, and a subroutine call becomes a hidden copy of the group that it calls.

A call leads from a tree into the definition of a group, which is no part of that tree. No group is
copied inside its own copy, so the number of groups bounds how deep calls can lead: `lowerCall` goes
down by one with each call, and `lowerNode` by the structure of the tree in between.
-/

namespace Diglot.Core

/-- How a source pattern is lowered. -/
structure LowerOptions where
  /-- Whether approximations are refused. -/
  strict : Bool := false
  /-- `\b` and `\B` look for ASCII word characters. -/
  asciiWordBoundaries : Bool := false
  /-- Patterns that need the emulation wrapper are refused. -/
  avoidEmulation : Bool := false
  /-- `^` and `$` match at the ends of the text only. -/
  singleline : Bool := false
  deriving DecidableEq, Repr

/-- What holds at a place of a source tree. -/
structure Scope where
  ignoreCase : Bool
  dotAll : Bool
  /-- Directly at the root, flag groups aside. -/
  topLevel : Bool := false
  /-- Inside a copy made by a subroutine call. -/
  inClone : Bool := false
  deriving DecidableEq, Repr

namespace Scope

/-- The scope inside a flag group. -/
def apply (s : Scope) (c : Source.FlagChange) : Scope :=
  { s with
    ignoreCase := Source.FlagChange.apply s.ignoreCase c.enable.ignoreCase c.disable.ignoreCase
    dotAll := Source.FlagChange.apply s.dotAll c.enable.dotAll c.disable.dotAll }

def nested (s : Scope) : Scope :=
  { s with topLevel := false }

end Scope

/-- A capture group as a subroutine call needs it: with the flags at its definition. -/
structure Definition where
  number : Nat
  name : Option String
  body : Source.Node
  scope : Scope

mutual

/-- The definitions of the capture groups of a tree, the last one first. -/
def definitions (s : Scope) (found : List Definition) : Source.Node → List Definition
  | .group (.capture number name) body => definitions s (⟨number, name, body, s⟩ :: found) body
  | .group (.flags change) body => definitions (s.apply change) found body
  | .group _ body => definitions s found body
  | .sequence ns | .alternation ns => definitionsAll s found ns
  | .repeated body _ => definitions s found body
  | .absent body => definitions s found body
  | _ => found

def definitionsAll (s : Scope) (found : List Definition) : List Source.Node → List Definition
  | [] => found
  | n :: ns => definitionsAll s (definitions s found n) ns

end

/-- What does not change while a pattern is lowered. -/
structure Lowering where
  options : LowerOptions
  flags : Flags
  definitions : List Definition

/-- The groups around a place: those that it lies in, and those whose copies it lies in. -/
structure Trail where
  ancestors : List Nat := []
  inlining : List Nat := []

/-- Lowering may fail, and remembers whether it has met a recursion. -/
abbrev Lower := StateT Bool (Except Error)

namespace Lowering

/-- The options that the lowering of sets depends on. -/
def sets (e : Lowering) : SetOptions := ⟨e.flags, e.options.strict⟩

/-- The definition of a group. Of several with one number, the last counts. -/
def definition? (e : Lowering) (number : Nat) : Option Definition :=
  e.definitions.find? (·.number == number)

def approximate (e : Lowering) (what : Approximation) : Lower Unit :=
  Core.approximate e.options.strict what

end Lowering

def refuse {α : Type} (f : Feature) : Lower α :=
  throw (.unsupported f)

/-! ## Host forms of single constructs -/

/-- The end of the text, or the place before a newline that ends it. -/
def stringEndNewline : Node :=
  .ahead false (.sequence [.repeated (.char '\n') ⟨0, some 1, .greedy⟩, .assertion .stringEnd])

/-- A word character before and none after, or none before and one after; negated, one on both sides
or on neither. -/
def wordBoundary (negated : Bool) : Node :=
  let word := Node.cls (.of wordItems)
  .group (.alternation [
    .sequence [.behind false word, .ahead (!negated) word],
    .sequence [.behind true word, .ahead negated word]])

/-- One line break, taken as a whole. -/
def lineBreak : Node :=
  .atomic (.alternation [
    .sequence [.char '\r', .char '\n'],
    .cls (.of (['\n', '\x0b', '\x0c', '\r', '\u0085', '\u2028', '\u2029'].map .char))])

/-- A character with the marks on it, taken as a whole. -/
def grapheme : Node :=
  .atomic (.alternation [
    .sequence [.char '\r', .char '\n'],
    .sequence [
      .cls .any,
      .repeated (.cls (.of [.property "M" false])) ⟨0, none, .greedy⟩]])

/-- Lowers an assertion. Only a newline separates lines. -/
def lowerAssertion (e : Lowering) : Source.Assertion → Except Error Node
  | .lineStart =>
    return if e.options.singleline then .assertion .stringStart else .behind true (.cls .notNewline)
  | .lineEnd =>
    return if e.options.singleline then stringEndNewline else .ahead true (.cls .notNewline)
  | .stringStart => return .assertion .stringStart
  | .stringEnd => return .assertion .stringEnd
  | .stringEndNewline => return stringEndNewline
  | .searchStart => .error (.unsupported .innerSearchStart)
  | .wordBoundary => return boundary false
  | .nonWordBoundary => return boundary true
where
  /-- The boundary between word characters and others, in the sense that the options ask for. -/
  boundary (negated : Bool) : Node :=
    if e.options.asciiWordBoundaries || e.flags.asciiWord then .assertion (.wordBoundary negated)
    else wordBoundary negated

/-! ## Trees -/

/-- How many nodes stand before the last `\K`, if there is one. -/
def lastKeep? (nodes : List Source.Node) : Option Nat :=
  match nodes with
  | [] => none
  | n :: ns =>
    match lastKeep? ns, n with
    | some k, _ => some (k + 1)
    | none, .keep => some 0
    | none, _ => none

/-- A group inside a flag group needs parentheses only if it is an alternation. -/
def parenthesized (n : Node) : Node :=
  if n.isAlternation then .group n else n

section

variable (e : Lowering) (call : Trail → Scope → Nat → Lower Node)

mutual

/-- Lowers a tree. What a subroutine call becomes is given by `call`. -/
def lowerNode (t : Trail) (s : Scope) : Source.Node → Lower Node
  | .empty => return .empty
  | .literal c => return .literal c s.ignoreCase
  | .dot => return .dot s.dotAll
  | .sequence ns =>
    return .ofSequence (← lowerParts t s.nested (if s.topLevel then lastKeep? ns else none) [] ns)
  | .alternation ns => return .alternation (← lowerAll t s.nested ns)
  | .set x => do
    let (negated, items) ← (lowerSet e.sets x : Except Error _)
    return .cls (.mk negated items s.ignoreCase)
  | .charClass c => return .cls (← (lowerClass e.sets s.ignoreCase c : Except Error _))
  | .group (.capture number name) body => do
    let body ← lowerNode { t with ancestors := number :: t.ancestors } s.nested body
    return .capture number name s.inClone (if s.inClone then some number else none) body
  | .group .plain body => return .group (← lowerNode t s.nested body)
  | .group .atomic body => return .atomic (← lowerNode t s.nested body)
  | .group (.look l) body => return .look l (← lowerNode t s.nested body)
  | .group (.flags change) body => return parenthesized (← lowerNode t (s.apply change) body)
  | .repeated body q => return .repeated (← lowerNode t s.nested body) q
  | .assertion a => (lowerAssertion e a : Except Error Node)
  | .backreference _ _ targets => do
    if 1 < targets.length then e.approximate .duplicatedNameReference
    return .backreference targets s.ignoreCase
  | .subroutine _ _ target => call t s target
  | .keep => if s.topLevel then return .empty else refuse .nestedKeep
  | .lineBreak => return lineBreak
  | .grapheme => do
    e.approximate .grapheme
    return grapheme
  | .absent _ => refuse .absentFunction

def lowerAll (t : Trail) (s : Scope) : List Source.Node → Lower (List Node)
  | [] => return []
  | n :: ns => do
    let first ← lowerNode t s n
    return first :: (← lowerAll t s ns)

/-- Lowers the parts of a sequence, in order. What comes before the last `\K`, which is `cut` nodes
ahead, is only looked for and not matched. `done` holds the parts so far, the last one first. -/
def lowerParts (t : Trail) (s : Scope) (cut : Option Nat) (done : List Node) :
    List Source.Node → Lower (List Node)
  | [] => return done.reverse
  | n :: ns =>
    match cut, n with
    | some 0, _ => do
      let before := Node.ofSequence done.reverse
      if before.isEmpty then lowerParts t s none [] ns
      else
        e.approximate .keep
        lowerParts t s none [.behind false before] ns
    | some (k + 1), .keep => lowerParts t s (some k) done ns
    | some (k + 1), n => do
      let part ← lowerNode t s n
      lowerParts t s (some k) (part :: done) ns
    | none, n => do
      let part ← lowerNode t s n
      lowerParts t s none (part :: done) ns

end

end

/-- Lowers a call to the group that it lies in, or to the whole pattern. -/
def lowerRecursion (e : Lowering) (t : Trail) (s : Scope) (target : Nat) : Lower Node := do
  if s.inClone || !t.inlining.isEmpty then refuse .recursionThroughCall
  if ← get then refuse .severalRecursions
  set true
  e.approximate .recursion
  return .recursion target

/-- Lowers a subroutine call, inside at most `depth` more calls. A call to a group that it lies in
is a recursion; any other call becomes a hidden copy of the group. -/
def lowerCall (e : Lowering) : Nat → Trail → Scope → Nat → Lower Node
  | depth, t, s, target =>
    if target = 0 || t.ancestors.contains target then lowerRecursion e t s target
    else if t.inlining.contains target then refuse .mutualRecursion
    else
      match depth, e.definition? target with
      | depth + 1, some d => do
        let inner : Trail := ⟨target :: t.ancestors, target :: t.inlining⟩
        let scope : Scope := { d.scope with topLevel := false, inClone := true }
        let body ← lowerNode e (lowerCall e depth) inner scope d.body
        return .capture target d.name true (some target) body
      | _, _ => refuse (.unknownGroup target)
termination_by structural depth => depth

/-- A lowered pattern: its tree, and how its matches are chosen. -/
structure Pattern where
  root : Node
  strategy : Option Strategy

/-- The core tree of a source pattern. -/
def Pattern.lower (o : LowerOptions) (p : Source.Pattern) : Except Error Pattern := do
  let (strategy, stripped) := p.root.splitStrategy o.singleline
  if strategy.isSome && o.avoidEmulation then throw (.unsupported .leadingSearchStart)
  let scope : Scope :=
    { ignoreCase := p.flags.ignoreCase, dotAll := p.flags.dotAll, topLevel := true }
  let e : Lowering := ⟨o, p.flags, definitions scope [] p.root⟩
  let root ← (lowerNode e (lowerCall e e.definitions.length) {} scope stripped).run' false
  return { root, strategy }

end Diglot.Core
