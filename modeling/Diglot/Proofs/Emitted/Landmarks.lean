import Diglot.Proofs.Emitted.Gathering
import Diglot.Proofs.Emitted.ReadBack

/-!
# Landmarks

The landmarks of a pattern are what its reductions look for: where captures open and close, where
atomic groups begin, and where there are recursion markers. A possessive quantifier counts as an
atomic group around what it repeats. The landmarks of a written pattern are those of its core tree,
so they are the same however leaves and groups are spelled.
-/

namespace Diglot.Emitted

open Diglot.Core

variable {w w' : Writing} {n : Node}

/-- Something that a reduction looks for. -/
inductive Landmark where
  /-- A capture opens. -/
  | opening (title : Option (List Char))
  /-- A capture closes. -/
  | closing
  /-- An atomic group begins. -/
  | atomic
  /-- A recursion marker. -/
  | marker (kind : Kind)
  deriving DecidableEq, Repr

/-- The landmarks of a token by itself. -/
def leafLandmarks (t : Token) : List Landmark :=
  if t.kind.isMarker then [.marker t.kind] else []

/-- The landmarks of a group around others. -/
def groupLandmarks (opener : Token) (inside : List Landmark) : List Landmark :=
  match opener.kind with
  | .captureOpen title => .opening title :: (inside ++ [.closing])
  | .atomicOpen => .atomic :: inside
  | _ => inside

/-- The landmarks of something with its quantifier. -/
def repeatedLandmarks (q : Token) (inside : List Landmark) : List Landmark :=
  if q.kind = .quantifier true then .atomic :: inside else inside

mutual

/-- The landmarks of a phrase. -/
def Phrase.landmarks : Phrase → List Landmark
  | .leaf t => leafLandmarks t
  | .group opener body => groupLandmarks opener (landmarksAll body)
  | .repeated body q => repeatedLandmarks q body.landmarks

/-- The landmarks of phrases, one after the other. -/
def landmarksAll : List Phrase → List Landmark
  | [] => []
  | p :: ps => p.landmarks ++ landmarksAll ps

end

@[simp] theorem landmarksAll_singleton (p : Phrase) : landmarksAll [p] = p.landmarks := by
  simp [landmarksAll]

/-! ## Landmarks of outlines -/

/-- How landmarks are gathered. -/
def landmarking : Gathering Landmark where
  leaf := leafLandmarks
  group := groupLandmarks
  repeated := repeatedLandmarks
  plain inside h := by rw [groupLandmarks, h]
  quiet {t} h := by
    cases hk : t.kind <;>
      simp_all [leafLandmarks, groupLandmarks, repeatedLandmarks, Kind.isQuiet, Kind.isMarker]

mutual

theorem landmarking_phrase : ∀ p : Phrase, landmarking.phrase p = p.landmarks
  | .leaf t => by rw [Gathering.phrase, Phrase.landmarks]; rfl
  | .group opener body => by
    rw [Gathering.phrase, Phrase.landmarks, landmarking_phrases body]
    rfl
  | .repeated body q => by
    rw [Gathering.phrase, Phrase.landmarks, landmarking_phrase body]
    rfl

theorem landmarking_phrases : ∀ ps : List Phrase, landmarking.phrases ps = landmarksAll ps
  | [] => by rw [Gathering.phrases, landmarksAll]
  | p :: ps => by
    rw [Gathering.phrases, landmarksAll, landmarking_phrase p, landmarking_phrases ps]

end

/-- **Phrases have the landmarks of their outline.** -/
theorem landmarking_outline (caseless : Bool) (ps : List Phrase) :
    landmarking.items (outline caseless ps) = landmarksAll ps := by
  rw [Gathering.items_outline, landmarking_phrases]

/-! ## Landmarks of trees -/

theorem landmarking_leafOutline (hleaf : IsLeaf n) (hplain : Plain n) (seen : List Heading)
    (caseless expand : Bool) : landmarking.items (leafOutline w seen caseless expand n) = [] := by
  rcases hleaf.eq with ⟨c, ic, rfl⟩ | ⟨c, rfl⟩ | ⟨targets, ic, rfl⟩
  · rw [leafOutline, landmarking.items_literal]
  · rw [Plain] at hplain
    rw [leafOutline]
    split
    next => rfl
    next t ht => exact landmarking.items_textOutline (isQuiet_classLeaf hplain ht) caseless
  · rw [leafOutline]
    unfold referenceOutline
    split
    · exact landmarking.items_textOutline ⟨_, quietText_never⟩ caseless
    · rw [Gathering.items_choose]
      induction w.numbering.meant seen.length targets with
      | nil => rfl
      | cons i indices ih =>
        rw [List.map_cons, Gathering.family, ih, Gathering.items_singleton]
        rfl

theorem landmarking_leaf (hleaf : IsLeaf n) (hplain : Plain n) (seen : List Heading) :
    landmarking.items (nodeOutline w' seen n) = landmarking.items (nodeOutline w seen n) := by
  rw [nodeOutline_leaf hleaf, nodeOutline_leaf hleaf, landmarking_leafOutline hleaf hplain,
    landmarking_leafOutline hleaf hplain]

mutual

/-- **The landmarks of a tree do not depend on how its leaves are written.** -/
theorem landmarking_nodeOutline (h : markerToken w' = markerToken w) (n : Node) (hp : Plain n)
    (seen : List Heading) :
    landmarking.items (nodeOutline w' seen n) = landmarking.items (nodeOutline w seen n) := by
  cases n with
  | empty | assertion => rfl
  | recursion target => rw [nodeOutline, nodeOutline, h]
  | dot all =>
    rw [nodeOutline, nodeOutline, landmarking.items_textOutline (isQuiet_dotText w' all),
      landmarking.items_textOutline (isQuiet_dotText w all)]
  | sequence ns =>
    rw [nodeOutline, nodeOutline]
    exact landmarking_sequenceOutline h ns hp seen
  | alternation ns =>
    rw [nodeOutline, nodeOutline, Gathering.items_choose, Gathering.items_choose]
    exact landmarking_alternativeOutlines h ns hp seen
  | group body =>
    rw [nodeOutline, nodeOutline]
    exact landmarking_nodeOutline h body hp seen
  | capture _ _ _ _ body =>
    simp only [nodeOutline, Gathering.items_singleton, Gathering.item,
      landmarking_nodeOutline h body hp.2]
  | atomic body | look _ body | repeated body =>
    simp only [nodeOutline, Gathering.items_singleton, Gathering.item,
      landmarking_nodeOutline h body hp]
  | literal | cls | backreference => exact landmarking_leaf (by trivial) hp seen

theorem landmarking_sequenceOutline (h : markerToken w' = markerToken w) (ns : List Node)
    (hp : AllPlain ns) (seen : List Heading) : landmarking.items (sequenceOutline w' seen ns)
      = landmarking.items (sequenceOutline w seen ns) := by
  cases ns with
  | nil => rw [sequenceOutline, sequenceOutline]
  | cons n ns =>
    rw [sequenceOutline, sequenceOutline, Gathering.items_append, Gathering.items_append,
      landmarking_nodeOutline h n hp.1, landmarking_sequenceOutline h ns hp.2]

theorem landmarking_alternativeOutlines (h : markerToken w' = markerToken w) (ns : List Node)
    (hp : AllPlain ns) (seen : List Heading) : landmarking.family (alternativeOutlines w' seen ns)
      = landmarking.family (alternativeOutlines w seen ns) := by
  cases ns with
  | nil => rw [alternativeOutlines, alternativeOutlines]
  | cons n ns =>
    rw [alternativeOutlines, alternativeOutlines, Gathering.family, Gathering.family,
      landmarking_nodeOutline h n hp.1, landmarking_alternativeOutlines h ns hp.2]

end

/-- **Written forms of one tree have the same landmarks.** -/
theorem WrittenAs.landmarks_eq {o o' : WriteOptions} {root : Node} {text text' : Text}
    {ps qs : List Phrase} (h : WrittenAs o root text ps) (h' : WrittenAs o' root text' qs)
    (hp : Plain root) (hlimit : o'.recursionLimit = o.recursionLimit) :
    landmarksAll qs = landmarksAll ps := by
  rw [← landmarking_outline false qs, ← landmarking_outline false ps, h.outline, h'.outline]
  refine landmarking_nodeOutline (funext fun target => ?_) root hp []
  unfold markerToken
  dsimp only [Writing.of]
  rw [hlimit]

end Diglot.Emitted
