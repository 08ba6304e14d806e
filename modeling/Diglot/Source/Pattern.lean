import Diglot.Flags
import Diglot.Source.Resolution
import Diglot.Source.Tree.Reader

/-!
# Source patterns

A source pattern that has been read: its tree with numbered groups and resolved references, its
capture groups, and the flags it was read with.
-/

namespace Diglot.Source

/-- How a source pattern is read. -/
structure ReadOptions where
  flags : Flags := {}
  /-- Groups without a name capture even if others have one. -/
  captureGroup : Bool := false
  /-- Backreferences to groups that do not exist are allowed. -/
  allowOrphans : Bool := false
  deriving DecidableEq, Repr

structure Pattern where
  root : Node
  groups : Groups
  flags : Flags

def Pattern.read (o : ReadOptions) (text : List Char) : Except Error Pattern := do
  let tree ← Node.ofText o.flags.extended text
  let namesOnly := tree.hasNamedGroup && !o.captureGroup
  let (tree, groups) := tree.number namesOnly {}
  let (root, _) ← tree.resolve ⟨groups, namesOnly, o.allowOrphans⟩ 0
  return { root, groups, flags := o.flags }

end Diglot.Source
