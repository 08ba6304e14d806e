import Diglot.Source.Tree

/-!
# Capture groups

The capture groups of a pattern in the order in which they open. Several groups may share a name.
The numbers of the groups are their places in that order, so they need not be stored.
-/

namespace Diglot.Source

/-- The names of the capture groups, in opening order. -/
structure Groups where
  names : List (Option String) := []
  deriving DecidableEq, Repr

namespace Groups

def count (g : Groups) : Nat :=
  g.names.length

/-- Adds a group after the others. Its number is the new count. -/
def register (g : Groups) (name : Option String) : Groups :=
  ⟨g.names ++ [name]⟩

/-- The name of the group with a number, if there is such a group. Numbers start at 1. -/
def get? (g : Groups) : Nat → Option (Option String)
  | 0 => none
  | n + 1 => g.names[n]?

/-- Every group with its number. -/
def toList (g : Groups) : List (Nat × Option String) :=
  g.names.zipIdx.map fun (name, i) => (i + 1, name)

/-- The numbers of the groups with a name, ascending. -/
def numbersNamed (g : Groups) (name : String) : List Nat :=
  g.toList.filterMap fun (n, x) => if x = some name then some n else none

def hasNamed (g : Groups) : Bool :=
  g.names.any (·.isSome)

def isDuplicate (g : Groups) (name : String) : Bool :=
  1 < (g.numbersNamed name).length

@[simp] theorem count_register (g : Groups) (name : Option String) :
    (g.register name).count = g.count + 1 := by
  simp [count, register]

end Groups

/-- The group that a relative reference means when `opened` groups have been opened before it: `-1`
is the last of them. -/
def resolveRelative (relative : Int) (opened : Nat) : Option Nat :=
  if relative ≥ 0 then none
  else if relative.natAbs > opened then none
  else some (opened - relative.natAbs + 1)

theorem resolveRelative_le {r : Int} {opened n : Nat} (h : resolveRelative r opened = some n) :
    1 ≤ n ∧ n ≤ opened := by
  unfold resolveRelative at h
  split at h
  · cases h
  · split at h
    · cases h
    · cases h; omega

/-! ## Numbering -/

namespace Node

mutual

def hasNamedGroup : Node → Bool
  | group (.capture _ (some _)) _ => true
  | group _ body => body.hasNamedGroup
  | sequence ns | alternation ns => anyNamedGroup ns
  | repeated body _ => body.hasNamedGroup
  | absent body => body.hasNamedGroup
  | _ => false

def anyNamedGroup : List Node → Bool
  | [] => false
  | n :: ns => n.hasNamedGroup || anyNamedGroup ns

end

mutual

/-- Numbers the capture groups in the order in which they open, after those of `g`. With
`unnamedArePlain`, groups without a name do not capture. -/
def number (unnamedArePlain : Bool) (g : Groups) : Node → Node × Groups
  | group (.capture _ name) body =>
    if name.isNone && unnamedArePlain then
      let (body, g) := body.number unnamedArePlain g
      (group .plain body, g)
    else
      let opened := g.register name
      let (body, g) := body.number unnamedArePlain opened
      (group (.capture opened.count name) body, g)
  | group kind body =>
    let (body, g) := body.number unnamedArePlain g
    (group kind body, g)
  | sequence ns =>
    let (ns, g) := numberAll unnamedArePlain g ns
    (sequence ns, g)
  | alternation ns =>
    let (ns, g) := numberAll unnamedArePlain g ns
    (alternation ns, g)
  | repeated body q =>
    let (body, g) := body.number unnamedArePlain g
    (repeated body q, g)
  | absent body =>
    let (body, g) := body.number unnamedArePlain g
    (absent body, g)
  | n => (n, g)

def numberAll (unnamedArePlain : Bool) (g : Groups) : List Node → List Node × Groups
  | [] => ([], g)
  | n :: ns =>
    let (n, g) := n.number unnamedArePlain g
    let (ns, g) := numberAll unnamedArePlain g ns
    (n :: ns, g)

end

end Node

end Diglot.Source
