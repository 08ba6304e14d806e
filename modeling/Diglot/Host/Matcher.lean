import Diglot.Host.Tree

/-!
# Matching host patterns

A pattern is matched by backtracking. A node gets the thread of matching so far and a continuation
for what stands after it, tries its ways of matching in the order of preference, and hands each
result to the continuation until one succeeds.

Positions count characters. Inside a look behind everything is matched from right to left.
-/

namespace Diglot.Host

/-- A part of a text from one position to another. -/
structure Span where
  start : Nat
  stop : Nat
  deriving DecidableEq, Repr

/-- Where matching has got to, and what the captures have matched. The capture with number `n` is at
index `n - 1`. -/
structure Thread where
  position : Nat
  captures : List (Option Span)
  deriving DecidableEq, Repr

/-- The direction in which a text is matched. -/
inductive Direction where
  | forward
  | backward
  deriving DecidableEq, Repr

/-- What is matched and how, apart from what groups can change. -/
structure Subject where
  grammar : Grammar
  text : Array Char

namespace Thread

def capture (t : Thread) (n : Nat) : Option Span :=
  t.captures.getD (n - 1) none

def setCapture (t : Thread) (n : Nat) (s : Span) : Thread :=
  { t with captures := t.captures.set (n - 1) (some s) }

/-- The thread after the captures have been forgotten. -/
def clear (t : Thread) (numbers : List Nat) : Thread :=
  { t with captures := numbers.foldl (fun cs n => cs.set (n - 1) none) t.captures }

end Thread

namespace Subject

/-- The character before a position. -/
def before? (s : Subject) (p : Nat) : Option Char :=
  if p = 0 then none else s.text[p - 1]?

/-- The character after a position. -/
def after? (s : Subject) (p : Nat) : Option Char :=
  s.text[p]?

/-- The next character in a direction, and the position behind it. -/
def next? (s : Subject) (d : Direction) (p : Nat) : Option (Char × Nat) :=
  match d with
  | .forward => (s.after? p).map (·, p + 1)
  | .backward => (s.before? p).map (·, p - 1)

def slice (s : Subject) (span : Span) : List Char :=
  (s.text.extract span.start span.stop).toList

/-- Where a text ends that stands next to a position. -/
def skip? (s : Subject) (m : Mode) (d : Direction) (p : Nat) (text : List Char) : Option Nat :=
  let n := text.length
  let span : Span := match d with
    | .forward => ⟨p, p + n⟩
    | .backward => ⟨p - n, p⟩
  let found := s.slice span
  if found.length = n && (text.zip found).all fun (a, b) => m.same s.grammar a b then
    some (match d with
      | .forward => span.stop
      | .backward => span.start)
  else none

/-- Whether a word character stands on exactly one side of a position. -/
def atWordBoundary (s : Subject) (m : Mode) (p : Nat) : Bool :=
  (s.before? p).any (m.isWord s.grammar) != (s.after? p).any (m.isWord s.grammar)

def holds (s : Subject) (m : Mode) (p : Nat) : Edge → Bool
  | .lineStart => p = 0 || (m.multiline && (s.before? p).any isLineEnd)
  | .lineEnd => p = s.text.size || (m.multiline && (s.after? p).any isLineEnd)
  | .wordBoundary => s.atWordBoundary m p
  | .nonWordBoundary => !s.atWordBoundary m p

/-- How many characters are left in a direction. -/
def left (s : Subject) (d : Direction) (p : Nat) : Nat :=
  match d with
  | .forward => s.text.size - p
  | .backward => p

end Subject

/-- What stands after a node. -/
abbrev Continuation := Thread → Option Thread

/-- A way of matching, up to a continuation. -/
abbrev Matcher := Thread → Continuation → Option Thread

namespace Matcher

/-- One character that satisfies `p`. -/
def char (s : Subject) (d : Direction) (p : Char → Bool) : Matcher := fun t k =>
  match s.next? d t.position with
  | some (c, position) => if p c then k { t with position } else none
  | none => none

/-- The first of the alternatives that leads to success. -/
def orElse (a b : Matcher) : Matcher := fun t k =>
  (a t k).orElse fun _ => b t k

/-- One after the other. -/
def andThen (a b : Matcher) : Matcher := fun t k =>
  a t fun u => b u k

/-- The first way in which a matcher succeeds by itself, and no other. -/
def commit (m : Matcher) : Matcher := fun t k =>
  (m t some).bind k

/-- The body exactly `n` times. -/
def times (body : Matcher) : Nat → Matcher
  | 0 => fun t k => k t
  | n + 1 => fun t k => body t fun u => body.times n u k

/-- The body any number of times up to `max`, the more the better unless `isLazy`. An iteration that
matches nothing does not count. As every iteration uses up a character, `fuel` iterations are enough
when not more than `fuel` characters are left. -/
def upTo (body : Matcher) (isLazy : Bool) : Nat → Option Nat → Matcher
  | 0, _ => fun t k => k t
  | fuel + 1, max => fun t k =>
    if max = some 0 then k t
    else
      let more := fun _ : Unit => body t fun u =>
        if u.position = t.position then none
        else body.upTo isLazy fuel (max.map (· - 1)) u k
      if isLazy then (k t).orElse more else (more ()).orElse fun _ => k t

end Matcher

namespace Node

/-- The numbers of the captures of a tree. -/
def numbers (n : Node) : List Nat :=
  n.captures.map (·.1)

/-- How a node is matched in a mode and a direction. -/
def matcher (s : Subject) : Node → Mode → Direction → Matcher
  | empty, _, _ => fun t k => k t
  | any, m, d => Matcher.char s d fun c => m.dotAll || !isLineEnd c
  | set negated cs, m, d => Matcher.char s d (cs.accepts s.grammar m negated)
  | member text cs, m, d => fun t k =>
    match (text.mapM Text.charOf?).bind (s.skip? m d t.position) with
    | some position =>
      if cs.hasText (m.sameCode s.grammar) text then k { t with position } else none
    | none => none
  | edge e, m, _ => fun t k => if s.holds m t.position e then k t else none
  | backreference numbers, m, d => fun t k =>
    match numbers.reverse.findSome? t.capture with
    | none => k t
    | some span =>
      match s.skip? m d t.position (s.slice span) with
      | some position => k { t with position }
      | none => none
  | capture number _ body, m, d => fun t k =>
    body.matcher s m d t fun u =>
      k (u.setCapture number (match d with
        | .forward => ⟨t.position, u.position⟩
        | .backward => ⟨u.position, t.position⟩))
  | atomic body, m, d => (body.matcher s m d).commit
  | modified change body, m, d => body.matcher s (m.change change) d
  | look l body, m, _ => fun t k =>
    let inner := body.matcher s m (if l.behind then .backward else .forward)
    match inner t some with
    | some u => if l.negated then none else k { u with position := t.position }
    | none => if l.negated then k t else none
  | repeated min max isLazy body, m, d =>
    let inside := body.numbers
    let once : Matcher := fun t k => body.matcher s m d (t.clear inside) k
    (once.times min).andThen fun t k =>
      once.upTo isLazy (s.left d t.position) (max.map (· - min)) t k
  | sequence a b, m, d =>
    match d with
    | .forward => (a.matcher s m d).andThen (b.matcher s m d)
    | .backward => (b.matcher s m d).andThen (a.matcher s m d)
  | alternation a b, m, d => (a.matcher s m d).orElse (b.matcher s m d)

theorem matcher_alternation (s : Subject) (a b : Node) (m : Mode) (d : Direction) :
    (alternation a b).matcher s m d = (a.matcher s m d).orElse (b.matcher s m d) := by
  rw [matcher]

end Node

end Diglot.Host
