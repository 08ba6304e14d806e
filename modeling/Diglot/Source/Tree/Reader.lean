import Diglot.Source.Token.Lexer
import Diglot.Source.Tree

/-!
# Reading trees

Words are put together into a tree with a stack of open groups. Each word changes the stack once: a
group opens or closes, a quantifier takes the last part, anything else is a new part. Inside a
bracketed class a second stack holds the open classes. Whether blanks count belongs to the open
group, so it comes back by itself when a group closes.

`readTree` ends because every word takes a character.
-/

namespace Diglot.Source

open Reader

/-! ## Bracketed classes -/

/-- What the next words of a class amount to. -/
inductive ClassStep where
  | close
  /-- A class inside opens. -/
  | nested (start : Nat) (negated : Bool)
  | intersection
  | item (i : ClassItem)

/-- A literal of a class, or the range that it begins. A hyphen before the closing bracket is no
range. -/
def classLiteral (c : Char) : Reader ClassItem := do
  let place ← position
  let isRange ← ask fun k => match k.rest with
    | '-' :: x :: _ => x != ']'
    | _ => false
  if !isRange then return .char c
  let _ ← nextClassToken
  match ← nextClassToken with
  | some (.literal last) => if c ≤ last then return .range c last else failAt place .emptyRange
  | _ => failAt place .invalidRangeEnd

/-- The step that begins with a class word. -/
def classStepOf : ClassToken → Reader ClassStep
  | .close => return .close
  | .nested negated => return .nested ((← position) - 1) negated
  | .intersection => return .intersection
  | .hyphen => return .item (.char '-')
  | .literal c => return .item (← classLiteral c)
  | .set s => return .item (.set s)

/-- The next step inside a class. -/
def nextClassStep : Reader (Option ClassStep) :=
  nextWord fun start c => do classStepOf (← classTokenFrom start c)

/-- A class that has not been closed yet. Lists hold the last part first. -/
structure ClassFrame where
  start : Nat
  negated : Bool
  /-- No word has been read yet, so a closing bracket stands for itself. -/
  first : Bool := true
  operands : List CharClass := []
  items : List ClassItem := []

namespace ClassFrame

def push (f : ClassFrame) (i : ClassItem) : ClassFrame :=
  { f with first := false, items := i :: f.items }

/-- The items so far become an operand of an intersection. -/
def cut (f : ClassFrame) : ClassFrame :=
  { f with first := false, operands := .mk false f.items.reverse :: f.operands, items := [] }

def toClass (f : ClassFrame) : CharClass :=
  if f.operands.isEmpty then .mk f.negated f.items.reverse
  else .mk f.negated [.intersection (.mk false f.items.reverse :: f.operands).reverse]

end ClassFrame

/-! ## Groups -/

/-- How the part of a pattern that is being read began. -/
inductive Opening where
  /-- A group that opened at `start` and has to be closed. -/
  | group (start : Nat) (how : GroupOpen)
  /-- A flag directive, which ends with the group around it. -/
  | directive (change : FlagChange)

namespace Opening

/-- The node for what has been read since the opening. -/
def node (body : Node) : Opening → Node
  | group _ .capture => .group (.capture 0 none) body
  | group _ (.named name) => .group (.capture 0 (some name)) body
  | group _ .plain => .group .plain body
  | group _ .atomic => .group .atomic body
  | group _ (.look l) => .group (.look l) body
  | group _ (.flags change) => .group (.flags change) body
  | group _ .absent => .absent body
  | directive change => .group (.flags change) body

/-- Whether free spacing is on after the opening. -/
def extended (old : Bool) : Opening → Bool
  | group _ (.flags change) => change.extended old
  | directive change => change.extended old
  | _ => old

end Opening

/-- A part of a pattern that is being read. Lists hold the last part first. -/
structure Frame where
  extended : Bool
  alternatives : List Node := []
  parts : List Node := []

namespace Frame

def push (f : Frame) (n : Node) : Frame :=
  { f with parts := n :: f.parts }

/-- The frame after a vertical bar. -/
def nextAlternative (f : Frame) : Frame :=
  { f with alternatives := .ofSequence f.parts.reverse :: f.alternatives, parts := [] }

/-- What has been read in the frame. -/
def body (f : Frame) : Node :=
  .ofAlternatives (.ofSequence f.parts.reverse :: f.alternatives).reverse

end Frame

/-- How far a pattern has been read: the innermost frame, the frames around it with the openings
that lie between, and the open classes from the inside out. -/
structure Reading where
  frame : Frame
  outer : List (Opening × Frame) := []
  classes : List ClassFrame := []

namespace Reading

/-- Closes the innermost group together with the directives in it. There may be no group to
close. -/
def closeGroup (f : Frame) : List (Opening × Frame) → Option Reading
  | [] => none
  | (.directive change, parent) :: outer =>
    closeGroup (parent.push ((Opening.directive change).node f.body)) outer
  | (.group start how, parent) :: outer =>
    some { frame := parent.push ((Opening.group start how).node f.body), outer }

/-- The whole pattern, if no group is open. -/
def finish (f : Frame) : List (Opening × Frame) → Except Error Node
  | [] => .ok f.body
  | (.directive change, parent) :: outer =>
    finish (parent.push ((Opening.directive change).node f.body)) outer
  | (.group start _, _) :: _ => .error (.malformed start .unclosedGroup)

def push (s : Reading) (n : Node) : Except Error Reading :=
  .ok { s with frame := s.frame.push n }

/-- The reading inside a new frame. -/
def opened (s : Reading) (o : Opening) : Except Error Reading :=
  .ok { s with
    frame := { extended := o.extended s.frame.extended }
    outer := (o, s.frame) :: s.outer }

/-- The reading with its last part repeated. -/
def repeated (s : Reading) (start : Nat) (q : Quantifier) : Except Error Reading :=
  match s.frame.parts with
  | [] => .error (.malformed start .nothingToRepeat)
  | .assertion _ :: _ | .keep :: _ => .error (.malformed start .cannotRepeat)
  | n :: before => .ok { s with frame := { s.frame with parts := .repeated n q :: before } }

/-- The reading after a word that starts at `start`. -/
def step (s : Reading) (start : Nat) : Token → Except Error Reading
  | .pipe => .ok { s with frame := s.frame.nextAlternative }
  | .close =>
    match closeGroup s.frame s.outer with
    | some s => .ok s
    | none => .error (.malformed start .unmatchedClose)
  | .classOpen negated => .ok { s with classes := [{ start, negated }] }
  | .dot => s.push .dot
  | .groupOpen how => s.opened (.group start how)
  | .directive change => s.opened (.directive change)
  | .quantifier q => s.repeated start q
  | .literal c => s.push (.literal c)
  | .set x => s.push (.set x)
  | .assertion a => s.push (.assertion a)
  | .backreference ref => s.push (.backreference start ref [])
  | .subroutine ref => s.push (.subroutine start ref 0)
  | .keep => s.push .keep
  | .lineBreak => s.push .lineBreak
  | .grapheme => s.push .grapheme

/-- The reading after a class has been closed: it is an item of the class around it, or a part. -/
def closeClass (s : Reading) (cls : CharClass) : List ClassFrame → Reading
  | [] => { s with frame := s.frame.push (.charClass cls), classes := [] }
  | k :: ks => { s with classes := k.push (.nested cls) :: ks }

/-- The reading after a step inside the class `k`. -/
def classStep (s : Reading) (k : ClassFrame) (ks : List ClassFrame) : ClassStep → Reading
  | .close =>
    if k.first then { s with classes := k.push (.char ']') :: ks } else s.closeClass k.toClass ks
  | .nested start negated => { s with classes := { start, negated } :: k :: ks }
  | .intersection => { s with classes := k.cut :: ks }
  | .item i => { s with classes := k.push i :: ks }

end Reading

/-- Reads the rest of a pattern. -/
def readTree (s : Reading) (c : Cursor) : Except Error Node :=
  match s.classes with
  | [] =>
    match _h : (nextToken s.frame.extended).run c with
    | (.error e, _) => .error e
    | (.ok none, _) => Reading.finish s.frame s.outer
    | (.ok (some t), d) =>
      match s.step c.pos t with
      | .error e => .error e
      | .ok s => readTree s d.1
  | k :: ks =>
    match _h : nextClassStep.run c with
    | (.error e, _) => .error e
    | (.ok none, _) => .error (.malformed k.start .unclosedClass)
    | (.ok (some t), d) => readTree (s.classStep k ks t) d.1
termination_by c.rest.length
decreasing_by
  · have := nextToken_length (congrArg Prod.fst _h)
    rwa [_h] at this
  · have := nextWord_length (congrArg Prod.fst _h)
    rwa [← nextClassStep, _h] at this

/-- The tree of a pattern text, with groups not numbered and references not resolved. -/
def Node.ofText (extended : Bool) (text : List Char) : Except Error Node :=
  readTree { frame := { extended } } (.start text)

end Diglot.Source
