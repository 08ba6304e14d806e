import Diglot.Proofs.Emitted.ClassPhrases
import Diglot.Proofs.Emitted.Reference

/-!
# What a core tree is meant to say

The outline and the tally that the written form of a core tree should have, read off the tree
itself. Grouping nodes say nothing, sequences and alternations are flattened, and a leaf says what
its own text says by itself. Captures are known by their headings, in the order of the walk.
-/

namespace Diglot.Core

/-- What a capture is, apart from its body. -/
structure Heading where
  number : Nat
  name : Option String
  hidden : Bool
  origin : Option Nat
  deriving DecidableEq, Repr

namespace Node

/-- The heading of a node, if it is a capture. -/
def heading? : Node → Option Heading
  | capture number name hidden origin _ => some ⟨number, name, hidden, origin⟩
  | _ => none

/-- The captures of a tree, in the order of the walk. -/
def headings (n : Node) : List Heading :=
  n.walk.filterMap heading?

/-- The captures of several trees, one after the other. -/
def headingsAll (ns : List Node) : List Heading :=
  (walkAll ns).filterMap heading?

@[simp] theorem headingsAll_nil : headingsAll [] = [] := rfl

@[simp] theorem headingsAll_cons (n : Node) (ns : List Node) :
    headingsAll (n :: ns) = n.headings ++ headingsAll ns := by
  simp [headingsAll, headings, walkAll]

section

variable (number : Nat) (name : Option String) (hidden : Bool) (origin : Option Nat) (b : Bool)
  (body : Node) (ns : List Node)

@[simp] theorem headings_sequence : (sequence ns).headings = headingsAll ns := rfl

@[simp] theorem headings_alternation : (alternation ns).headings = headingsAll ns := rfl

@[simp] theorem headings_capture : (capture number name hidden origin body).headings
    = ⟨number, name, hidden, origin⟩ :: body.headings := rfl

@[simp] theorem headings_group : (group body).headings = body.headings := rfl

@[simp] theorem headings_atomic : (atomic body).headings = body.headings := rfl

@[simp] theorem headings_look (l : Look) : (look l body).headings = body.headings := rfl

@[simp] theorem headings_repeated (q : Quantifier) : (repeated body q).headings = body.headings :=
  rfl

@[simp] theorem headings_empty : empty.headings = [] := rfl

@[simp] theorem headings_literal (c : Char) : (literal c b).headings = [] := rfl

@[simp] theorem headings_dot : (dot b).headings = [] := rfl

@[simp] theorem headings_cls (c : CharClass) : (cls c).headings = [] := rfl

@[simp] theorem headings_assertion (a : Assertion) : (assertion a).headings = [] := rfl

@[simp] theorem headings_backreference (targets : List Nat) :
    (backreference targets b).headings = [] := rfl

@[simp] theorem headings_recursion : (recursion number).headings = [] := rfl

end

end Node

/-- The name that a capture is written with after the captures `seen`: its own, unless it is hidden
or another capture has been given the name. -/
def Heading.title (seen : List Heading) (h : Heading) : Option (List Char) :=
  match h.hidden, h.name with
  | false, some s =>
    if seen.any (fun g => !g.hidden && g.name == some s) then none else some s.toList
  | _, _ => none

/-- The names that captures are written with after the captures `seen`. -/
def titles (seen : List Heading) : List Heading → List (Option (List Char))
  | [] => []
  | h :: hs => h.title seen :: titles (seen ++ [h]) hs

theorem titles_append (seen hs gs : List Heading) :
    titles seen (hs ++ gs) = titles seen hs ++ titles (seen ++ hs) gs := by
  induction hs generalizing seen with
  | nil => simp [titles]
  | cons h hs ih => simp [titles, ih]

@[simp] theorem length_titles (seen hs : List Heading) : (titles seen hs).length = hs.length := by
  induction hs generalizing seen with
  | nil => rfl
  | cons h hs ih => simp [titles, ih]

end Diglot.Core

namespace Diglot.Emitted

open Diglot.Core Unicode

/-! ## Leaves -/

/-- What a text says by itself. -/
def textOutline (caseless : Bool) (text : Text) : List Item :=
  match scan text with
  | .error _ => []
  | .ok tokens =>
    match parse tokens with
    | none => []
    | some ps => outline caseless ps

/-- What a reference to captures says: one of them, or nothing that matches. -/
def referenceOutline (caseless : Bool) : List Nat → List Item
  | [] => textOutline caseless never
  | indices => choose (indices.map fun i => [.leaf (referenceToken i) caseless])

/-- What a literal, a class or a backreference says after the captures `seen`. With `expand`, case
variants are written out. -/
def leafOutline (w : Writing) (seen : List Heading) (caseless expand : Bool) : Node → List Item
  | .literal c ignoreCase => textOutline caseless (literalText w c ignoreCase false expand)
  | .cls c =>
    match classLeaf (w.classStyle (expand && c.ignoreCase)) c with
    | .error _ => []
    | .ok text => textOutline caseless text
  | .backreference targets _ => referenceOutline caseless (w.numbering.meant seen.length targets)
  | _ => []

/-- The token of a recursion marker. -/
def markerToken (w : Writing) (target : Nat) : Token :=
  let depth := w.options.recursionLimit
  if target = 0 then
    ⟨.recursion depth, '(' :: '?' :: 'R' :: '=' :: (Nat.toDigits 10 depth ++ [')'])⟩
  else
    let i := (w.numbering.primary? target).getD 0
    ⟨.groupRecursion (groupNumbered i) depth,
      '\\' :: 'g' :: '<' :: (Nat.toDigits 10 i ++ '&' :: 'R' :: '=' :: Nat.toDigits 10 depth ++ ['>'])⟩

/-! ## Trees -/

section

variable (w : Writing)

mutual

/-- What a tree says after the captures `seen`. Only a leaf for which case makes a difference, and
which ignores it where others do not, lies in a modifier group. -/
def nodeOutline (seen : List Heading) : Node → List Item
  | .empty => []
  | .sequence ns => sequenceOutline seen ns
  | .alternation ns => choose (alternativeOutlines seen ns)
  | .group body => nodeOutline seen body
  | .capture number name hidden origin body =>
    let h : Heading := ⟨number, name, hidden, origin⟩
    [.group (captureToken (h.title seen)) (nodeOutline (seen ++ [h]) body)]
  | .atomic body => [.group atomicToken (nodeOutline seen body)]
  | .look l body => [.group (lookToken l) (nodeOutline seen body)]
  | .repeated body q => [.repeated (nodeOutline seen body) (quantifierToken q)]
  | .assertion a => textOutline false (assertionText a)
  | .dot all => textOutline false (dotText w all)
  | .recursion target => [.leaf (markerToken w target) false]
  | n =>
    let caseless := w.isCaselessLeaf n
    leafOutline w seen caseless (w.mode == .mixed && !caseless) n

/-- What trees say one after the other. -/
def sequenceOutline (seen : List Heading) : List Node → List Item
  | [] => []
  | n :: ns => nodeOutline seen n ++ sequenceOutline (seen ++ n.headings) ns

/-- What each of several trees says. -/
def alternativeOutlines (seen : List Heading) : List Node → List (List Item)
  | [] => []
  | n :: ns => nodeOutline seen n :: alternativeOutlines (seen ++ n.headings) ns

end

mutual

/-- What there is in a tree after the captures `seen`. -/
def nodeTally (seen : List Heading) : Node → Tally
  | .sequence ns | .alternation ns => nodesTally seen ns
  | .group body | .look _ body => nodeTally seen body
  | .capture number name hidden origin body =>
    let h : Heading := ⟨number, name, hidden, origin⟩
    (nodeTally (seen ++ [h]) body).capture (h.title seen)
  | .atomic body => (nodeTally seen body).atomic
  | .repeated body q => (nodeTally seen body).repeated (q.kind = .possessive)
  | .recursion target => { markers := [((markerToken w target).kind, [])] }
  | _ => {}

/-- What there is in trees one after the other. -/
def nodesTally (seen : List Heading) : List Node → Tally
  | [] => {}
  | n :: ns => nodeTally seen n ++ nodesTally (seen ++ n.headings) ns

end

end

/-! ## Leaves -/

/-- The node is written as a leaf: it is a literal, a class or a backreference. -/
def IsLeaf : Node → Prop
  | .literal _ _ | .cls _ | .backreference _ _ => True
  | _ => False

theorem IsLeaf.eq {n : Node} (h : IsLeaf n) :
    (∃ c i, n = .literal c i) ∨ (∃ c, n = .cls c) ∨ ∃ targets i, n = .backreference targets i := by
  cases n <;> simp_all [IsLeaf]

theorem nodeOutline_leaf {w : Writing} {n : Node} (h : IsLeaf n) (seen : List Heading) :
    nodeOutline w seen n
      = leafOutline w seen (w.isCaselessLeaf n) (w.mode == .mixed && !w.isCaselessLeaf n) n := by
  rcases h.eq with ⟨c, i, rfl⟩ | ⟨c, rfl⟩ | ⟨targets, i, rfl⟩ <;> simp [nodeOutline]

theorem nodeTally_leaf {w : Writing} {n : Node} (h : IsLeaf n) (seen : List Heading) :
    nodeTally w seen n = {} := by
  rcases h.eq with ⟨c, i, rfl⟩ | ⟨c, rfl⟩ | ⟨targets, i, rfl⟩ <;> simp [nodeTally]

end Diglot.Emitted
