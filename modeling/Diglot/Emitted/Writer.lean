import Diglot.Core.Lowering
import Diglot.Emitted.Balance
import Diglot.Emitted.ClassText
import Diglot.Emitted.Numbering

/-!
# Writing core trees

`writePattern` writes a core tree as host text with extensions, and gives the flags and the capture
layout that belong to it. A part gets parentheses only where it needs them. A digit that follows a
backreference is kept apart from its number by an empty group.
-/

namespace Diglot.Emitted

open Diglot.Core Unicode

/-- How a core tree is written. -/
structure WriteOptions where
  /-- Whether approximations are refused. -/
  strict : Bool := false
  target : Target := .es2025
  recursionLimit : Nat := 20
  /-- Whether groups that are not needed are kept. -/
  verbose : Bool := false
  deriving DecidableEq, Repr

/-- What does not change while a tree is written. -/
structure Writing where
  options : WriteOptions
  mode : CaseMode
  /-- Whether the host is told that dots match newlines. -/
  dotAllFlag : Bool
  numbering : Numbering

/-- What has been written so far, as far as it matters to what follows. -/
structure Progress where
  /-- How many captures have been opened. -/
  opened : Nat := 0
  openCaptures : List Nat := []
  /-- The names that have been given. -/
  names : List String := []
  /-- Whether the text ends in a backreference, which a digit would extend. -/
  afterReference : Bool := false

/-- Writing may fail, and keeps track of its progress. -/
abbrev Write := StateT Progress (Except Error)

namespace Writing

/-- Whether leaves that ignore case are put into modifier groups. -/
def usesModifierGroups (w : Writing) : Bool :=
  w.mode == .mixed && w.options.target.hasFlagGroups

/-- Whether a node is a leaf that goes into a modifier group. -/
def isCaselessLeaf (w : Writing) (n : Node) : Bool :=
  w.usesModifierGroups && leafCase? n == some true

/-- Whether a group is written with parentheses. -/
def wrapsGroup (w : Writing) (body : Node) : Bool :=
  w.options.verbose || body.isAlternation

/-- How classes are written. -/
def classStyle (w : Writing) (expand : Bool) : ClassStyle :=
  ⟨w.options.target.hasUnicodeSets, expand, w.options.strict⟩

def approximate (w : Writing) (what : Approximation) : Except Error Unit :=
  Core.approximate w.options.strict what

end Writing

/-- Whether the text before a node ended in a backreference. From here on it no longer does. -/
def takeAfterReference : Write Bool := do
  let p ← get
  set { p with afterReference := false }
  return p.afterReference

/-! ## Leaves -/

def grouped (t : Text) : Text :=
  "(?:".toList ++ t ++ [')']

/-- The group that keeps a digit apart from a number before it. -/
def separator : Text := "(?:)".toList

/-- What never matches. -/
def never : Text := "(?!)".toList

def referenceText (i : Nat) : Text :=
  '\\' :: (toString i).toList

/-- A literal. With `expand`, its case variants are written out if it ignores case. -/
def literalText (w : Writing) (c : Char) (ignoreCase afterReference expand : Bool) : Text :=
  let v := w.options.target.hasUnicodeSets
  match if expand && ignoreCase then caseVariants c else [] with
  | [] => (if afterReference && c.isDigit then separator else []) ++ escapeChar c
  | variants => '[' :: escapeInClass v c ++ variants.flatMap (escapeInClass v) ++ [']']

/-- The captures that a reference to source groups may mean, ascending, and whether one of the
groups has not been opened yet. -/
def candidates (numbering : Numbering) (opened : Nat) : List Nat → List Nat × Bool
  | [] => ([], false)
  | target :: targets =>
    let all := numbering.indices target
    let before := all.filter (· ≤ opened)
    let (found, forward) := candidates numbering opened targets
    if before.isEmpty then (all.foldr insertAscending found, true)
    else (before.foldr insertAscending found, forward)

/-- A backreference. Of several captures that it may mean, the last that took part counts. -/
def backreferenceText (w : Writing) (targets : List Nat) : Write Text := do
  if targets.isEmpty then return never
  let p ← get
  let (found, forward) := candidates w.numbering p.opened targets
  if forward then w.approximate .forwardReference
  if found.any p.openCaptures.contains then w.approximate .referenceInsideGroup
  if 1 < found.length && targets.length = 1 then w.approximate .calledGroupReference
  match found with
  | [] => return never
  | [i] =>
    set { p with afterReference := true }
    return referenceText i
  | found => return grouped (['|'].intercalate (found.reverse.map referenceText))

/-- A literal, class or backreference; anything else is no leaf. -/
def leafText (w : Writing) (afterReference expand : Bool) : Node → Write Text
  | .literal c ignoreCase => return literalText w c ignoreCase afterReference expand
  | .cls c => (classLeaf (w.classStyle (expand && c.ignoreCase)) c : Except Error Text)
  | .backreference targets ignoreCase => do
    if expand && ignoreCase && w.options.strict then
      throw (.caselessReference w.options.target)
    backreferenceText w targets
  | _ => return []

/-! ## Quantifiers, recursion and looks -/

/-- The sign of a quantifier with its suffix. -/
def quantifierText (q : Quantifier) : Text :=
  let sign := match q.min, q.max with
    | 0, none => "*"
    | 1, none => "+"
    | 0, some 1 => "?"
    | n, none => "\x7b" ++ toString n ++ ",\x7d"
    | n, some m =>
      if n = m then "\x7b" ++ toString n ++ "\x7d"
      else "\x7b" ++ toString n ++ "," ++ toString m ++ "\x7d"
  sign.toList ++ match q.kind with
    | .greedy => []
    | .lazy => ['?']
    | .possessive => ['+']

/-- A repeated part: in parentheses unless it is one thing, and kept apart from a number before
it. -/
def repeatedText (body : Text) (q : Quantifier) (afterReference : Bool) : Text :=
  let target :=
    if !isSingleAtom body then grouped body
    else if afterReference && body.head?.any Char.isDigit then separator ++ body
    else body
  target ++ quantifierText q

def recursionText (w : Writing) (target : Nat) : Except Error Text :=
  let depth := toString w.options.recursionLimit
  if target = 0 then .ok ("(?R=" ++ depth ++ ")").toList
  else
    match w.numbering.primary? target with
    | some i => .ok ("\\g<" ++ toString i ++ "&R=" ++ depth ++ ">").toList
    | none => .error (.unsupported (.recursionInto target))

def lookText : Look → Text
  | ⟨false, false⟩ => "(?=".toList
  | ⟨false, true⟩ => "(?!".toList
  | ⟨true, false⟩ => "(?<=".toList
  | ⟨true, true⟩ => "(?<!".toList

def assertionText : Core.Assertion → Text
  | .stringStart => ['^']
  | .stringEnd => ['$']
  | .wordBoundary false => "\\b".toList
  | .wordBoundary true => "\\B".toList

def dotText (w : Writing) (all : Bool) : Text :=
  if !all then "[^\\n]".toList else if w.dotAllFlag then ['.'] else anyText

/-- Opens a capture. Only the first capture with a name gets it, and a hidden one never. -/
def openCapture (name : Option String) (hidden : Bool) : Write Text := do
  let p ← get
  let index := p.opened + 1
  let p := { p with opened := index, openCaptures := index :: p.openCaptures }
  match if hidden then none else name with
  | some s =>
    if p.names.contains s then
      set p
      return ['(']
    set { p with names := s :: p.names }
    return "(?<".toList ++ s.toList ++ ['>']
  | none =>
    set p
    return ['(']

def closeCapture : Write Unit :=
  modify fun p => { p with openCaptures := p.openCaptures.tail }

/-! ## Trees -/

/-- Writes a leaf that stands alone. -/
def writeLeaf (w : Writing) (n : Node) : Write Text := do
  let after ← takeAfterReference
  if w.isCaselessLeaf n then
    let text ← leafText w after false n
    return "(?i:".toList ++ text ++ [')']
  leafText w after (w.mode == .mixed) n

section

variable (w : Writing)

mutual

def writeNode : Node → Write Text
  | .empty => return []
  | .sequence ns => writeParts false ns
  | .group body => do
    if w.wrapsGroup body then
      let _ ← takeAfterReference
      let text ← writeNode body
      return grouped text
    writeNode body
  | .literal c ignoreCase => writeLeaf w (.literal c ignoreCase)
  | .cls c => writeLeaf w (.cls c)
  | .backreference targets ignoreCase => writeLeaf w (.backreference targets ignoreCase)
  | .dot all => do
    let _ ← takeAfterReference
    return dotText w all
  | .alternation ns => do
    let _ ← takeAfterReference
    let texts ← writeAll ns
    return ['|'].intercalate texts
  | .capture _ name hidden _ body => do
    let _ ← takeAfterReference
    let opener ← openCapture name hidden
    let text ← writeNode body
    closeCapture
    return opener ++ text ++ [')']
  | .atomic body => do
    let _ ← takeAfterReference
    let text ← writeNode body
    return "(?>".toList ++ text ++ [')']
  | .look l body => do
    let _ ← takeAfterReference
    let text ← writeNode body
    return lookText l ++ text ++ [')']
  | .repeated body q => do
    let after ← takeAfterReference
    let text ← writeNode body
    let _ ← takeAfterReference
    return repeatedText text q after
  | .assertion a => do
    let _ ← takeAfterReference
    return assertionText a
  | .recursion target => do
    let _ ← takeAfterReference
    (recursionText w target : Except Error Text)

def writeAll : List Node → Write (List Text)
  | [] => return []
  | n :: ns => do
    let first ← writeNode n
    let rest ← writeAll ns
    return first :: rest

/-- Writes the parts of a sequence. A run of leaves that ignore case shares one modifier group;
`inRun` says that such a group is open. -/
def writeParts (inRun : Bool) : List Node → Write Text
  | [] => return if inRun then [')'] else []
  | n :: ns => do
    if w.isCaselessLeaf n then
      let after ← takeAfterReference
      let first ← leafText w after false n
      let rest ← writeParts true ns
      return (if inRun then [] else "(?i:".toList) ++ first ++ rest
    let first ← writeNode n
    let rest ← writeParts false ns
    return (if inRun then [')'] else []) ++
      (if n.isAlternation then grouped first else first) ++ rest

end

end

theorem writeNode_recursion (w : Writing) (target : Nat) : writeNode w (.recursion target) = (do
    let _ ← takeAfterReference
    (recursionText w target : Except Error Text)) := by
  rw [writeNode]

/-- A written pattern: its text, the host's flags for it, and the layout of its captures. -/
structure Written where
  text : Text
  flags : String
  layout : CaptureLayout
  deriving DecidableEq, Repr

/-- Writes a core tree. The flags are `i` and `s`, if they hold for all of the pattern, then `v`, or
`u` where there is no `v`. -/
def writePattern (o : WriteOptions) (root : Node) : Except Error Written := do
  let w : Writing := ⟨o, caseMode root, allDotsMatchNewline root, .of root⟩
  let text ← (writeNode w root).run' {}
  let flags := (if w.mode == .insensitive then "i" else "") ++ (if w.dotAllFlag then "s" else "")
    ++ (if o.target.hasUnicodeSets then "v" else "u")
  return { text, flags, layout := w.numbering.layout }

end Diglot.Emitted
