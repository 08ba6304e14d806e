/-!
# Flags of the host

The letters `u` and `v` choose the grammar in which a host pattern is read. The letters `i`, `m` and
`s` set the mode in which it is matched, and groups can change the mode for their own part of the
pattern.
-/

namespace Diglot.Host

/-- How strictly a pattern is read. -/
inductive Grammar where
  /-- Neither `u` nor `v`: what is no construct stands for itself. -/
  | loose
  /-- Flag `u`: what is no construct is refused. -/
  | unicode
  /-- Flag `v`: as `u`, and classes can be nested, intersected and subtracted. -/
  | sets
  deriving DecidableEq, Repr

/-- Whether the grammar refuses what is no construct. -/
def Grammar.isStrict (g : Grammar) : Bool :=
  g != .loose

/-- How a part of a pattern is matched. -/
structure Mode where
  /-- Letters match in either case. -/
  ignoreCase : Bool := false
  /-- `^` and `$` also match at the ends of lines. -/
  multiline : Bool := false
  /-- The dot also matches the characters that end lines. -/
  dotAll : Bool := false
  deriving DecidableEq, Repr

/-- The modes that a group switches on and off for its body. -/
structure ModeChange where
  on : Mode
  off : Mode
  deriving DecidableEq, Repr

def Mode.change (m : Mode) (c : ModeChange) : Mode where
  ignoreCase := (m.ignoreCase || c.on.ignoreCase) && !c.off.ignoreCase
  multiline := (m.multiline || c.on.multiline) && !c.off.multiline
  dotAll := (m.dotAll || c.on.dotAll) && !c.off.dotAll

/-- The mode that letters name, if each letter names one and none is repeated. -/
def Mode.ofLetters? : List Char → Option Mode
  | [] => some {}
  | c :: cs => do
    let m ← ofLetters? cs
    match c with
    | 'i' => if m.ignoreCase then none else some { m with ignoreCase := true }
    | 'm' => if m.multiline then none else some { m with multiline := true }
    | 's' => if m.dotAll then none else some { m with dotAll := true }
    | _ => none

/-- Whether two modes have something in common. -/
def Mode.meets (a b : Mode) : Bool :=
  a.ignoreCase && b.ignoreCase || a.multiline && b.multiline || a.dotAll && b.dotAll

structure Flags where
  grammar : Grammar
  mode : Mode
  deriving DecidableEq, Repr

/-- The flags among the letters; other letters do not concern the host engine. -/
def Flags.ofLetters (letters : List Char) : Flags where
  grammar :=
    if letters.contains 'v' then .sets else if letters.contains 'u' then .unicode else .loose
  mode := {
    ignoreCase := letters.contains 'i'
    multiline := letters.contains 'm'
    dotAll := letters.contains 's' }

end Diglot.Host
