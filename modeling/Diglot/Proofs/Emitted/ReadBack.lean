import Diglot.Proofs.Core.Lowered
import Diglot.Proofs.Emitted.WrittenTree

/-!
# Reading written patterns back

The text of a written pattern can be scanned, and parsing the tokens with the usual precedence gives
what the core tree is meant to say. In particular captures, recursion markers, atomic groups and
possessive quantifiers among the tokens are those of the tree, in the order of the walk.
-/

namespace Diglot

open Core Emitted

/-- Whether the node is an atomic group. -/
def Core.Node.isAtomicGroup : Node → Bool
  | .atomic _ => true
  | _ => false

/-- Whether the node has a possessive quantifier. -/
def Core.Node.isPossessive : Node → Bool
  | .repeated _ q => q.kind = .possessive
  | _ => false

namespace Emitted

/-! ## The tally of a tree -/

/-- What there is in a tree, counted along the walk. -/
def walkTally (w : Writing) (seen : List Heading) (n : Node) : Tally where
  titles := titles seen n.headings
  markers := n.recursions.map fun r => ((markerToken w r.1).kind, r.2)
  atomics := n.walk.countP (·.isAtomicGroup)
  possessives := n.walk.countP (·.isPossessive)

mutual

theorem nodeTally_eq_walkTally (w : Writing) (n : Node) (seen : List Heading) :
    nodeTally w seen n = walkTally w seen n := by
  cases n with
  | sequence ns => rw [nodeTally, nodesTally_eq_walkTally w ns seen]
  | alternation ns =>
    rw [nodeTally, nodesTally_eq_walkTally w ns seen]
    ext1 <;> simp [walkTally, Node.walk, Node.recursions, Node.isAtomicGroup, Node.isPossessive]
  | group body | look _ body | atomic body =>
    rw [nodeTally, nodeTally_eq_walkTally w body seen]
    ext1 <;> simp [walkTally, Node.walk, Node.recursions, Node.isAtomicGroup, Node.isPossessive,
      Tally.atomic]
  | repeated body q =>
    rw [nodeTally, nodeTally_eq_walkTally w body seen]
    by_cases hq : q.kind = .possessive <;> ext1 <;> simp [walkTally, Node.walk, Node.recursions,
      Node.isAtomicGroup, Node.isPossessive, Tally.repeated, hq]
  | capture number name hidden origin body =>
    rw [nodeTally, nodeTally_eq_walkTally w body]
    ext1 <;> simp [walkTally, Node.walk, Node.recursions, Node.isAtomicGroup, Node.isPossessive,
      Tally.capture, titles, Function.comp_def]
  | _ =>
    ext1 <;> simp [nodeTally, walkTally, Node.walk, Node.recursions, Node.isAtomicGroup,
      Node.isPossessive, titles]

theorem nodesTally_eq_walkTally (w : Writing) : ∀ (ns : List Node) (seen : List Heading),
    nodesTally w seen ns = walkTally w seen (.sequence ns)
  | [], seen => by
    ext1 <;> simp [nodesTally, walkTally, Node.walk, Node.walkAll, Node.recursions,
      Node.recursionsAll, Node.isAtomicGroup, Node.isPossessive, titles]
  | n :: ns, seen => by
    rw [nodesTally, nodeTally_eq_walkTally w n, nodesTally_eq_walkTally w ns]
    ext1 <;> simp [walkTally, Node.walk, Node.walkAll, Node.recursions, Node.recursionsAll,
      Node.isAtomicGroup, Node.isPossessive, titles_append, Tally.later, Function.comp_def]

end

/-! ## Written patterns -/

/-- What a core tree is written with. -/
def Writing.of (o : WriteOptions) (root : Node) : Writing :=
  ⟨o, caseMode root, allDotsMatchNewline root, .of root⟩

/-- The text is that of legible phrases that say what the tree is meant to say. -/
structure WrittenAs (o : WriteOptions) (root : Node) (text : Text) (ps : List Phrase) : Prop where
  text : text = textOf (phraseTokens ps)
  legible : Legible ps
  references : ∀ t ∈ phraseTokens ps, ∀ i, t.kind = .backreference i → i ≤ root.headings.length
  outline : outline false ps = nodeOutline (.of o root) [] root
  tally : tallyAll ps = walkTally (.of o root) [] root

theorem length_entries_of (root : Node) :
    (Numbering.of root).entries.length = root.headings.length := by
  have hentry : ∀ n : Node, Numbering.entry? n
      = n.heading?.map fun h => ⟨h.number, h.hidden, h.origin⟩ := by
    intro n
    cases n <;> rfl
  rw [Numbering.of, List.length_map, List.length_zipIdx, Node.headings, funext hentry,
    ← List.map_filterMap, List.length_map]

/-- A plain tree is written as phrases. -/
theorem exists_writtenAs {o : WriteOptions} {root : Node} {written : Written} (hp : Plain root)
    (hd : o.recursionLimit < 2 ^ 32) (h : writePattern o root = .ok written) :
    (∃ ps, WrittenAs o root written.text ps) ∧ written.layout = (Numbering.of root).layout := by
  obtain ⟨text, hrun, h⟩ := exists_of_bind_eq_ok h
  cases h
  refine ⟨?_, rfl⟩
  obtain ⟨⟨t, p'⟩, hnode, ht⟩ := exists_of_bind_eq_ok hrun
  cases ht
  have hstart : Progress.Tracks {} [] := ⟨rfl, by simp⟩
  obtain ⟨ps, hw⟩ := writesNode (w := .of o root) (Numbering.counts_of root) hd root hp hstart hnode
  refine ⟨ps, hw.text, hw.spells.legible, ?_, hw.outline, ?_⟩
  · rw [← length_entries_of]
    exact hw.spells.references
  · rw [hw.tally, nodeTally_eq_walkTally]

theorem length_le_textOf {ts : List Token} (h : ∀ t ∈ ts, t.Regular) :
    ts.length ≤ (textOf ts).length := by
  induction ts with
  | nil => simp
  | cons t ts ih =>
    have hpos := List.length_pos_of_ne_nil (h t (by simp)).text_ne_nil
    have hrest := ih fun u hu => h u (by simp [hu])
    simp only [List.length_cons, textOf_cons, List.length_append]
    omega

/-- References to captures of a text that is not too long can be read. -/
theorem Legible.fits_of_length {ps : List Phrase} (h : Legible ps)
    (hr : ∀ t ∈ phraseTokens ps, ∀ i, t.kind = .backreference i → i ≤ (tallyAll ps).titles.length)
    (hsize : (textOf (phraseTokens ps)).length < 2 ^ 64) : ∀ t ∈ phraseTokens ps, t.Fits := by
  intro t ht i hi
  have hcaptures : (tallyAll ps).titles.length ≤ (phraseTokens ps).length := by
    rw [(counts_tallyAll ps h.wellFormed).titles]
    exact List.length_filterMap_le _ _
  have hlength := length_le_textOf h.regular
  have hle := hr t ht i hi
  omega

/-- A lowered pattern with property names without brackets is plain. -/
theorem lowered_of_read {ro : Source.ReadOptions} {text : List Char} {source : Source.Pattern}
    {lo : LowerOptions} {core : Core.Pattern} (hread : Source.Pattern.read ro text = .ok source)
    (hnames : source.root.keeps .unbracketed) (hlower : Core.Pattern.lower lo source = .ok core) :
    ∃ st, Lowered (source.groups.toList.map (·.1)) [] false source.groups.toList false st
      core.root := by
  obtain ⟨hcaptures, hreadable⟩ := Source.captures_of_read hread
  rw [← hcaptures]
  exact lowered_of_lower (Source.NameRule.plain_follows.node _ hreadable hnames) hlower

/-- **A written pattern reads back as its core tree.** The text can be scanned, the tokens can be
parsed, and the phrases say what the tree is meant to say: leaves are the tokens of their own texts,
caseless where they are meant to be, and sequences and alternations are flattened. The captures are
those of the tree with the names that they are meant to have, and so are the recursion markers, the
atomic groups and the possessive quantifiers. A depth has to fit into 32 bits and an index of a text
into 64. -/
theorem outline_written {ro : Source.ReadOptions} {text : List Char} {source : Source.Pattern}
    {lo : LowerOptions} {core : Core.Pattern} {o : WriteOptions} {written : Written}
    (hread : Source.Pattern.read ro text = .ok source) (hnames : source.root.keeps .unbracketed)
    (hlower : Core.Pattern.lower lo source = .ok core)
    (hwrite : writePattern o core.root = .ok written)
    (hlimit : o.recursionLimit < 2 ^ 32) (hsize : written.text.length < 2 ^ 64) :
    ∃ tokens phrases, scan written.text = .ok tokens ∧ parse tokens = some phrases ∧
      outline false phrases = nodeOutline (.of o core.root) [] core.root ∧
      tokens.filterMap (·.captureName?) = titles [] core.root.headings ∧
      (tokens.filter (·.kind.isMarker)).map (·.kind)
        = (core.root.walk.filterMap (·.target?)).map
            (fun target => (markerToken (.of o core.root) target).kind) ∧
      tokens.countP (·.kind == .atomicOpen) = core.root.walk.countP (·.isAtomicGroup) ∧
      tokens.countP (·.kind == .quantifier true) = core.root.walk.countP (·.isPossessive) := by
  obtain ⟨_, hlowered⟩ := lowered_of_read hread hnames hlower
  obtain ⟨⟨ps, hps⟩, -⟩ := exists_writtenAs hlowered.plain hlimit hwrite
  have hcounts := counts_tallyAll ps hps.legible.wellFormed
  rw [hps.tally] at hcounts
  have hfits : ∀ t ∈ phraseTokens ps, t.Fits := by
    refine hps.legible.fits_of_length ?_ (hps.text ▸ hsize)
    rw [hps.tally, walkTally, length_titles]
    exact hps.references
  refine ⟨phraseTokens ps, ps, ?_, parse_phraseTokens hps.legible.wellFormed, hps.outline,
    hcounts.titles.symm, ?_, hcounts.atomics.symm, hcounts.possessives.symm⟩
  · rw [hps.text]
    exact hps.legible.scan hfits
  · rw [← hcounts.markers, ← Node.targets_recursions, walkTally, List.map_map, List.map_map]
    rfl

/-- A pattern with a recursion, a subroutine call, references, leaves that ignore case, an atomic
group and a possessive quantifier. -/
theorem outline_written_example : ∃ source core written,
    Source.Pattern.read {} "(?<n>a|(?i)b\\g<m>)(?<m>c?+(?>d\\k<n>1))e\\g<0>?".toList = .ok source ∧
    Core.Pattern.lower {} source = .ok core ∧ writePattern {} core.root = .ok written ∧
    ∃ tokens phrases, scan written.text = .ok tokens ∧ parse tokens = some phrases ∧
      outline false phrases = nodeOutline (.of {} core.root) [] core.root := by
  obtain ⟨source, hread, hplain, core, hlower, written, hwrite, hlength⟩ : ∃ source,
      Source.Pattern.read {} "(?<n>a|(?i)b\\g<m>)(?<m>c?+(?>d\\k<n>1))e\\g<0>?".toList = .ok source ∧
      source.root.keeps .unbracketed ∧ ∃ core, Core.Pattern.lower {} source = .ok core ∧
      ∃ written, writePattern {} core.root = .ok written ∧ written.text.length < 2 ^ 64 := by
    decide +kernel
  obtain ⟨tokens, phrases, hscan, hparse, houtline, -⟩ := outline_written hread hplain hlower
    hwrite (by decide) hlength
  exact ⟨source, core, written, hread, hlower, hwrite, tokens, phrases, hscan, hparse, houtline⟩

end Emitted

end Diglot
