import Diglot.Host.Token.Lexer

/-!
# Reading host patterns

The tree of a host pattern is put together token by token, with the groups and classes that are open
on stacks. A token that does not fit makes the whole pattern be refused; why it does not fit is not
kept.
-/

namespace Diglot.Host

/-! ## Classes -/

/-- A part of a class as it is written. -/
inductive ClassPart where
  | code (n : Nat)
  | set (s : CharSet)
  | hyphen
  | difference
  | intersection
  deriving DecidableEq, Repr

namespace ClassPart

/-- The code point that a part can be in a class whose hyphens stand for themselves. -/
def code? : ClassPart → Option Nat
  | code n => some n
  | hyphen => some '-'.toNat
  | _ => none

/-- The set that a part is in a class whose hyphens stand for themselves. -/
def asSet : ClassPart → CharSet
  | set s => s
  | part =>
    match part.code? with
    | some n => .span n n
    | none => .empty

/-- The set that a part is as an operand. -/
def operand? : ClassPart → Option CharSet
  | code n => some (.span n n)
  | set s => some s
  | _ => none

end ClassPart

/-- The set of a class without operators. A hyphen that does not make a range stands for itself.
Only the loose grammar lets it stand beside the escape of a set. -/
def flatClass? (g : Grammar) : List ClassPart → Option CharSet
  | [] => some .empty
  | a :: .hyphen :: b :: rest => do
    let others ← flatClass? g rest
    match a.code?, b.code? with
    | some low, some high => if low ≤ high then some (.union (.span low high) others) else none
    | _, _ =>
      if g.isStrict then none
      else some (.union a.asSet (.union ClassPart.hyphen.asSet (.union b.asSet others)))
  | a :: rest => do
    let others ← flatClass? g rest
    some (.union a.asSet others)

/-- The set of a class of the grammar with sets that has no operators: a hyphen makes a range. -/
def unionClass? : List ClassPart → Option CharSet
  | [] => some .empty
  | .code low :: .hyphen :: .code high :: rest => do
    let others ← unionClass? rest
    if low ≤ high then some (.union (.span low high) others) else none
  | a :: rest => do
    let first ← a.operand?
    let others ← unionClass? rest
    some (.union first others)

/-- The operands that follow the first one, all behind the operator `op`. -/
def chain? (op : ClassPart) (join : CharSet → CharSet → CharSet) (first : CharSet) :
    List ClassPart → Option CharSet
  | [] => some first
  | o :: a :: rest => do
    let second ← a.operand?
    if o = op then chain? op join (join first second) rest else none
  | _ => none

/-- The set of a class of the grammar with sets: one operator at most is used in it. -/
def setClass? : List ClassPart → Option CharSet
  | a :: .intersection :: rest => do
    chain? .intersection .inter (← a.operand?) (.intersection :: rest)
  | a :: .difference :: rest => do
    chain? .difference .diff (← a.operand?) (.difference :: rest)
  | parts => unionClass? parts

/-- A class that is open: its parts are in reverse. -/
structure OpenClass where
  negated : Bool
  parts : List ClassPart := []

/-- The set between the brackets of a class. -/
def OpenClass.content? (g : Grammar) (c : OpenClass) : Option CharSet :=
  if g = .sets then setClass? c.parts.reverse else flatClass? g c.parts.reverse

/-! ## Groups -/

/-- An item of a sequence, and whether a quantifier can follow it. -/
structure Item where
  node : Node
  repeatable : Bool

/-- A group that is open: the alternatives before the current one and the items of the current one
are in reverse. -/
structure OpenGroup where
  opener : Opener
  /-- The number of the capture, if the group captures. -/
  number : Nat := 0
  alternatives : List Node := []
  items : List Item := []

namespace OpenGroup

def current (o : OpenGroup) : Node :=
  Node.ofSequence (o.items.reverse.map (·.node))

def body (o : OpenGroup) : Node :=
  Node.ofAlternatives (o.current :: o.alternatives).reverse

/-- The group once it is closed. Looks can be repeated in the loose grammar only, and only ahead. -/
def close (g : Grammar) (o : OpenGroup) : Item :=
  match o.opener with
  | .capture name => ⟨.capture o.number name o.body, true⟩
  | .plain => ⟨o.body, true⟩
  | .atomic => ⟨.atomic o.body, true⟩
  | .look l => ⟨.look l o.body, !g.isStrict && !l.behind⟩
  | .modified change => ⟨.modified change o.body, true⟩

def push (o : OpenGroup) (i : Item) : OpenGroup :=
  { o with items := i :: o.items }

end OpenGroup

/-! ## Patterns -/

/-- How far a pattern has been read. -/
structure Reading where
  /-- How many captures have been opened. -/
  opened : Nat := 0
  /-- The classes that are open, the innermost first. -/
  classes : List OpenClass := []
  /-- The innermost group that is open; the whole pattern is the outermost. -/
  group : OpenGroup := { opener := .plain }
  /-- The groups around it. -/
  outer : List OpenGroup := []

namespace Reading

def push (r : Reading) (i : Item) : Reading :=
  { r with group := r.group.push i }

/-- A token outside classes. The names are those of all captures of the pattern. -/
def plainStep (g : Grammar) (names : List (Option (List Char))) (r : Reading) :
    Token → Option Reading
  | .code n => some (r.push ⟨.set false (.span n n), true⟩)
  | .set s => some (r.push ⟨.ofSet s, true⟩)
  | .any => some (r.push ⟨.any, true⟩)
  | .edge e => some (r.push ⟨.edge e, false⟩)
  | .numbered n => if n ≤ names.length then some (r.push ⟨.backreference [n], true⟩) else none
  | .named s =>
    let numbers := (names.zipIdx 1).filterMap fun (name, n) =>
      if name = some s then some n else none
    if numbers.isEmpty then none else some (r.push ⟨.backreference numbers, true⟩)
  | .groupOpen (.capture name) =>
    let number := r.opened + 1
    some { r with
      opened := number, group := { opener := .capture name, number }, outer := r.group :: r.outer }
  | .groupOpen opener => some { r with group := { opener }, outer := r.group :: r.outer }
  | .groupClose =>
    match r.outer with
    | [] => none
    | o :: os => some { r with group := o.push (r.group.close g), outer := os }
  | .bar =>
    some { r with group := { r.group with
      alternatives := r.group.current :: r.group.alternatives, items := [] } }
  | .quantifier min max isLazy =>
    match r.group.items with
    | ⟨node, true⟩ :: items =>
      some { r with group := { r.group with
        items := ⟨.repeated min max isLazy node, false⟩ :: items } }
    | _ => none
  | .classOpen negated => some { r with classes := [{ negated }] }
  | .classClose | .hyphen | .difference | .intersection => none

/-- Only what can be repeated is repeated, and then it cannot be repeated again. -/
theorem exists_of_plainStep_quantifier {g : Grammar} {names : List (Option (List Char))}
    {r s : Reading} {min : Nat} {max : Option Nat} {isLazy : Bool}
    (h : r.plainStep g names (.quantifier min max isLazy) = some s) :
    ∃ node items, r.group.items = ⟨node, true⟩ :: items ∧ s = { r with group :=
      { r.group with items := ⟨.repeated min max isLazy node, false⟩ :: items } } := by
  rw [plainStep] at h
  split at h
  next node items hitems => exact ⟨node, items, hitems, (Option.some.inj h).symm⟩
  next => cases h

/-- A token in the class `c`, with the classes `cs` around it. -/
def classStep (g : Grammar) (r : Reading) (c : OpenClass) (cs : List OpenClass) :
    Token → Option Reading
  | .code n => some { r with classes := { c with parts := .code n :: c.parts } :: cs }
  | .set s => some { r with classes := { c with parts := .set s :: c.parts } :: cs }
  | .hyphen => some { r with classes := { c with parts := .hyphen :: c.parts } :: cs }
  | .difference => some { r with classes := { c with parts := .difference :: c.parts } :: cs }
  | .intersection => some { r with classes := { c with parts := .intersection :: c.parts } :: cs }
  | .classOpen negated => some { r with classes := { negated } :: c :: cs }
  | .classClose => do
    let s ← c.content? g
    if c.negated && s.mayHaveTexts then none
    match cs with
    | [] =>
      let node := if c.negated then Node.set true s else .ofSet s
      some { r.push ⟨node, true⟩ with classes := [] }
    | o :: os =>
      let part := ClassPart.set (if c.negated then .complement s else s)
      some { r with classes := { o with parts := part :: o.parts } :: os }
  | _ => none

def step (g : Grammar) (names : List (Option (List Char))) (r : Reading) (t : Token) :
    Option Reading :=
  match r.classes with
  | [] => r.plainStep g names t
  | c :: cs => r.classStep g c cs t

theorem step_of_classes_eq_nil {g : Grammar} {names : List (Option (List Char))} {r : Reading}
    (h : r.classes = []) (t : Token) : r.step g names t = r.plainStep g names t := by
  rw [step, h]

/-- A group that closes is the next item of the group around it. -/
theorem step_groupClose {g : Grammar} {names : List (Option (List Char))} {r : Reading}
    {o : OpenGroup} {os : List OpenGroup} (h : r.classes = []) (ho : r.outer = o :: os) :
    r.step g names .groupClose =
      some { r with group := o.push (r.group.close g), outer := os } := by
  rw [step_of_classes_eq_nil h, plainStep, ho]

/-- The tree, if nothing is open any more and its names are distinct. -/
def finish (r : Reading) : Option Node :=
  if r.classes.isEmpty && r.outer.isEmpty && r.group.body.hasDistinctNames then some r.group.body
  else none

end Reading

/-- The names of the captures that tokens open, in opening order. -/
def captureNames (ts : List Token) : List (Option (List Char)) :=
  ts.filterMap (·.captureName?)

/-- How a pattern is read, after it has been read once without regard to its captures: only then it
is known how many there are, and whether some have names. -/
def Dialect.of? (g : Grammar) (extended : Bool) (text : List Char) : Option Dialect := do
  let ts ← tokens? { grammar := g, extended, named := g.isStrict, captures := 0 } text
  let names := captureNames ts
  some {
    grammar := g
    extended
    named := g.isStrict || names.any (·.isSome)
    captures := names.length }

/-- The tree of a host pattern, unless the host refuses it. Atomic groups are read only if they are
admitted. -/
def Node.read? (g : Grammar) (extended : Bool) (text : List Char) : Option Node := do
  let ts ← tokens? (← Dialect.of? g extended text) text
  let r : Reading ← ts.foldlM (Reading.step g (captureNames ts)) {}
  r.finish

end Diglot.Host
