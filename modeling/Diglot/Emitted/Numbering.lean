import Diglot.CaptureLayout
import Diglot.Core.Tree

/-!
# Numbering captures

A written pattern counts its captures in the order in which they open. Source groups that are called
as subroutines are written several times, so a source number can have several indices. The first one
that the user sees is its primary index.
-/

namespace Diglot.Emitted

/-- What is remembered of a capture of a core tree. -/
structure CaptureEntry where
  number : Nat
  hidden : Bool
  origin : Option Nat
  deriving DecidableEq, Repr

/-- The captures of a core tree with their indices in the written pattern. -/
structure Numbering where
  entries : List (Nat × CaptureEntry)

namespace Numbering

def entry? : Core.Node → Option CaptureEntry
  | .capture number _ hidden origin _ => some ⟨number, hidden, origin⟩
  | _ => none

def of (root : Core.Node) : Numbering :=
  ⟨(root.walk.filterMap entry?).zipIdx.map fun (e, i) => (i + 1, e)⟩

/-- The indices of a source group, ascending. -/
def indices (n : Numbering) (number : Nat) : List Nat :=
  n.entries.filterMap fun (i, e) => if e.number = number then some i else none

/-- The first index of a source group that the user sees. -/
def primary? (n : Numbering) (number : Nat) : Option Nat :=
  n.entries.findSome? fun (i, e) => if e.number = number && !e.hidden then some i else none

/-- The layout of the written pattern: hidden captures are reported under the group they copy. -/
def layout (n : Numbering) : CaptureLayout :=
  n.entries.foldl (fun l (i, e) =>
    if e.hidden then
      match e.origin.bind n.primary? with
      | some destination => (l.hide i).transfer destination i
      | none => l.hide i
    else l) {}

end Numbering

end Diglot.Emitted
