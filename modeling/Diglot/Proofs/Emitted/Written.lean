import Diglot.Proofs.Emitted.RefersBack

/-!
# Written nodes

What is written for a node is the text of legible phrases, and these say what the node is meant to
say, if that holds of its parts. There is one lemma for each kind of node; sequences and
alternations follow in the next module.
-/

namespace Diglot.Emitted

open Diglot.Core

variable {p p' q : Progress} {body n : Node} {seen : List Heading} {ps : List Phrase} {t : Text}

/-- The text written for a node is that of phrases that say what the node is meant to say. The
phrases of an alternation have to stand in a group where others come before them. -/
structure Writes (w : Writing) (seen : List Heading) (n : Node) (p : Progress) (t : Text)
    (ps : List Phrase) (p' : Progress) : Prop where
  text : t = textOf (phraseTokens ps)
  spells : Spells w (p.afterReference && !n.isAlternation) ps p'.afterReference
  noBars : n.isAlternation = false → NoBars ps
  outline : outline false ps = nodeOutline w seen n
  tally : tallyAll ps = nodeTally w seen n
  tracks : p'.Tracks (seen ++ n.headings)
  /-- Under strict accuracy the references of the node refer back. -/
  refers : w.options.strict = true → Follows p p' (mentioning.items (nodeOutline w seen n))

/-- Whenever the node is written, its text is that of phrases. -/
def WritesNode (w : Writing) (n : Node) : Prop :=
  ∀ {seen : List Heading} {p p' : Progress} {t : Text}, p.Tracks seen →
    (writeNode w n).run p = .ok (t, p') → ∃ ps, Writes w seen n p t ps p'

theorem run_takeAfterReference (p : Progress) :
    takeAfterReference.run p = .ok (p.afterReference, { p with afterReference := false }) := rfl

/-- The state in which a node is written, once it has been asked whether a reference came before. -/
theorem exists_of_run_take {α : Type} {f : Bool → Write α} {a : α}
    (h : (takeAfterReference >>= f).run p = .ok (a, p')) :
    (f p.afterReference).run { p with afterReference := false } = .ok (a, p') := by
  obtain ⟨_, _, htake, h⟩ := exists_of_run_bind h
  rw [run_takeAfterReference] at htake
  cases htake
  exact h

variable {w : Writing}

/-- What has to be shown of a node that is no alternation. -/
theorem Writes.solid (hn : n.isAlternation = false) (ht : t = textOf (phraseTokens ps))
    (hs : Spells w p.afterReference ps p'.afterReference) (hb : NoBars ps)
    (ho : Emitted.outline false ps = nodeOutline w seen n)
    (ha : tallyAll ps = nodeTally w seen n) (hp : p'.Tracks (seen ++ n.headings))
    (hf : w.options.strict = true → Follows p p' (mentioning.items (nodeOutline w seen n))) :
    Writes w seen n p t ps p' where
  text := ht
  spells := by rw [hn]; simpa using hs
  noBars _ := hb
  outline := ho
  tally := ha
  tracks := hp
  refers := hf

theorem Writes.spells_solid (h : Writes w seen n p t ps p') (hn : n.isAlternation = false) :
    Spells w p.afterReference ps p'.afterReference := by
  have hspells := h.spells
  rw [hn] at hspells
  simpa using hspells

/-! ## Groups -/

theorem writesNode_empty : WritesNode w .empty := by
  intro seen p p' t hp h
  obtain ⟨rfl, rfl⟩ := eq_of_run_pure h
  exact ⟨[], .solid rfl rfl (.nil id) (by simp [NoBars]) rfl rfl (by simpa using hp)
    fun _ => .still rfl rfl⟩

theorem writesNode_group (ih : WritesNode w body) : WritesNode w (.group body) := by
  intro seen p p' t hp h
  rw [writeNode] at h
  split at h
  · replace h := exists_of_run_take h
    obtain ⟨text, q, hbody, h⟩ := exists_of_run_bind h
    obtain ⟨rfl, rfl⟩ := eq_of_run_pure h
    obtain ⟨ps, hps⟩ := ih (hp.after false) hbody
    refine ⟨[.group groupToken ps], .solid rfl ?_ (hps.spells.group regular_group rfl _ _)
      (noBars_group _ _) ?_ ?_ (by simpa using hps.tracks) fun hs => (hps.refers hs).before⟩
    · simp [grouped, hps.text, groupToken]
    · rw [outline_grouped, hps.outline, nodeOutline]
    · rw [tallyAll_singleton, Phrase.tally, hps.tally, nodeTally]
      rfl
  · next hwraps =>
    -- an alternation would have been put into parentheses
    have hbody : body.isAlternation = false := by
      simp only [Writing.wrapsGroup, Bool.or_eq_true, not_or, Bool.not_eq_true] at hwraps
      exact hwraps.2
    obtain ⟨ps, hps⟩ := ih hp h
    refine ⟨ps, .solid rfl hps.text (hps.spells_solid hbody) (hps.noBars hbody) ?_ ?_
      (by simpa using hps.tracks) hps.refers⟩
    · rw [hps.outline, nodeOutline]
    · rw [hps.tally, nodeTally]

/-- A node that is written as a group around its body, and whose group says something. -/
theorem Writes.enclosed {seen' : List Heading} {q' : Progress} {text : Text}
    (hbody : Writes w seen' body q text ps q') (hn : n.isAlternation = false) {opener : Token}
    (ho : opener.Regular) (hopen : opener.kind.isOpen) (hk : opener.kind ≠ .groupOpen)
    (houtline : nodeOutline w seen n = [.group opener (nodeOutline w seen' body)])
    (htally : nodeTally w seen n = groupTally opener (nodeTally w seen' body))
    (htracks : p'.Tracks (seen ++ n.headings))
    (hrefers : w.options.strict = true → Follows p p' (mentioning.items (nodeOutline w seen n))) :
    Writes w seen n p (opener.text ++ (text ++ [')'])) [.group opener ps] p' := by
  refine .solid hn (by simp [hbody.text]) (hbody.spells.group ho hopen _ _) (noBars_group _ _) ?_ ?_
    htracks hrefers
  · rw [outline_noBars (noBars_group _ _), houtline, ← hbody.outline]
    simp [Phrase.outline, hk, Emitted.outline]
  · rw [tallyAll_singleton, Phrase.tally, htally, hbody.tally]

theorem writesNode_atomic (ih : WritesNode w body) : WritesNode w (.atomic body) := by
  intro seen p p' t hp h
  rw [writeNode] at h
  replace h := exists_of_run_take h
  obtain ⟨text, q, hbody, h⟩ := exists_of_run_bind h
  obtain ⟨rfl, rfl⟩ := eq_of_run_pure h
  obtain ⟨ps, hps⟩ := ih (hp.after false) hbody
  rw [List.append_assoc]
  refine ⟨_, hps.enclosed rfl regular_atomic rfl (by simp [atomicToken]) (by rw [nodeOutline])
    (by rw [nodeTally]; rfl) (by simpa using hps.tracks) fun hs => ?_⟩
  rw [nodeOutline, Gathering.items_singleton]
  exact (hps.refers hs).before

theorem writesNode_look (l : Look) (ih : WritesNode w body) : WritesNode w (.look l body) := by
  intro seen p p' t hp h
  rw [writeNode] at h
  replace h := exists_of_run_take h
  obtain ⟨text, q, hbody, h⟩ := exists_of_run_bind h
  obtain ⟨rfl, rfl⟩ := eq_of_run_pure h
  obtain ⟨ps, hps⟩ := ih (hp.after false) hbody
  rw [List.append_assoc]
  refine ⟨_, hps.enclosed rfl (regular_look l) rfl (by simp [lookToken]) (by rw [nodeOutline])
    (by rw [nodeTally]; rfl) (by simpa using hps.tracks) fun hs => ?_⟩
  rw [nodeOutline, Gathering.items_singleton]
  exact (hps.refers hs).before

/-! ## Captures -/

theorem Progress.Tracks.extend (hp : p.Tracks seen) (h : Heading) (ho : q.opened = p.opened + 1)
    (hn : ∀ s, s ∈ q.names ↔ s ∈ p.names ∨ h.hidden = false ∧ h.name = some s) :
    q.Tracks (seen ++ [h]) where
  opened := by simp [ho, hp.opened]
  names s := by simp [hn s, hp.names s, or_and_right, exists_or]

/-- The name has been given to an earlier capture. -/
theorem Progress.Tracks.contains (hp : p.Tracks seen) (s : String) :
    p.names.contains s = seen.any (fun g => !g.hidden && g.name == some s) := by
  rw [Bool.eq_iff_iff, List.contains_iff_mem, hp.names, List.any_eq_true]
  simp

/-- A capture is opened with the name that it is meant to have. -/
theorem openCapture_spec (h : Heading) {o : Text} (hp : p.Tracks seen)
    (hrun : (openCapture h.name h.hidden).run p = .ok (o, q)) :
    o = openerText (h.title seen) ∧ q.Tracks (seen ++ [h]) := by
  rcases h with ⟨number, name, hidden, origin⟩
  obtain ⟨_, _, hget, hrun⟩ := exists_of_run_bind hrun
  cases hget
  match hidden, name with
  | true, _ =>
    cases hrun
    exact ⟨rfl, hp.extend _ rfl (by simp)⟩
  | false, none =>
    cases hrun
    exact ⟨rfl, hp.extend _ rfl (by simp)⟩
  | false, some s =>
    simp only [Bool.false_eq_true, if_false] at hrun
    split at hrun
    · next hseen =>
      cases hrun
      refine ⟨?_, hp.extend _ rfl fun s' => ?_⟩
      · rw [hp.contains s] at hseen
        simp only [Heading.title, if_pos hseen]
        rfl
      · have hmem : s ∈ p.names := by simpa using hseen
        constructor
        · exact .inl
        · rintro (h | ⟨-, h⟩)
          · exact h
          · exact Option.some.inj h ▸ hmem
    · next hnew =>
      cases hrun
      refine ⟨?_, hp.extend _ rfl fun s' => ?_⟩
      · rw [hp.contains s] at hnew
        simp only [Heading.title, if_neg hnew]
        simp [openerText]
      · simp [or_comm, eq_comm]

theorem regular_title {h : Heading} (hp : ∀ s ∈ h.name, PlainTitle s) (seen : List Heading) :
    (captureToken (h.title seen)).Regular := by
  refine regular_capture ?_
  unfold Heading.title
  split
  · next s _ hname =>
    split
    · exact sound_capture
    · exact sound_named (hp s hname).1 (hp s hname).2
  · exact sound_capture

theorem writesNode_capture {number : Nat} {name : Option String} {hidden : Bool}
    {origin : Option Nat} (hname : ∀ s ∈ name, PlainTitle s) (ih : WritesNode w body) :
    WritesNode w (.capture number name hidden origin body) := by
  intro seen p p' t hp h
  rw [writeNode] at h
  replace h := exists_of_run_take h
  obtain ⟨o, q, hopen, h⟩ := exists_of_run_bind h
  obtain ⟨text, r, hbody, h⟩ := exists_of_run_bind h
  obtain ⟨_, _, hclose, h⟩ := exists_of_run_bind h
  cases hclose
  obtain ⟨rfl, rfl⟩ := eq_of_run_pure h
  obtain ⟨hopened, haround⟩ := openCapture_progress hopen
  obtain ⟨rfl, hq⟩ := openCapture_spec ⟨number, name, hidden, origin⟩ (hp.after false) hopen
  obtain ⟨ps, hps⟩ := ih hq hbody
  have htracks := hps.tracks
  rw [List.append_assoc]
  refine ⟨_, hps.enclosed rfl (regular_title hname seen) rfl (by simp [captureToken])
    (by rw [nodeOutline]) (by rw [nodeTally]; rfl) ?_ fun hs => ?_⟩
  · exact ⟨by simpa using htracks.opened, by simpa using htracks.names⟩
  · rw [nodeOutline, Gathering.items_singleton]
    exact (hps.refers hs).capture hopened haround

/-! ## Quantifiers -/

theorem outline_single {p : Phrase} (h : p.isTarget) (caseless : Bool) :
    outline caseless [p] = p.outline caseless := by
  have hbar : p.isBar = false := by
    cases p with
    | leaf t => cases hk : t.kind <;> simp_all [Phrase.isTarget, Phrase.isBar, Kind.isTarget]
    | _ => rfl
  rw [outline_noBars (by simpa [NoBars] using hbar)]
  simp

theorem outline_repeated {p : Phrase} (h : p.isTarget) (q : Token) :
    outline false [.repeated p q] = [.repeated (outline false [p]) q] := by
  rw [outline_noBars (by simp [NoBars, Phrase.isBar]), outline_single h]
  simp [Phrase.outline]

theorem tally_repeated (p : Phrase) (q : Quantifier) :
    (Phrase.repeated p (quantifierToken q)).tally = p.tally.repeated (q.kind = .possessive) := by
  simp [Phrase.tally, quantifierToken]

/-- What a repeated part is written as: a group around the part, or the part itself, which may have
to be kept apart from a number before it. -/
theorem exists_phrases_repeated {before middle : Bool} (hps : Spells w false ps middle)
    (q : Quantifier) (after : Bool) :
    ∃ rs, repeatedText (textOf (phraseTokens ps)) q before = textOf (phraseTokens rs) ∧
      Spells w before rs after ∧ NoBars rs ∧
      outline false rs = [.repeated (outline false ps) (quantifierToken q)] ∧
      tallyAll rs = (tallyAll ps).repeated (q.kind = .possessive) := by
  have hq := regular_quantifier q
  have htext : ∀ p : Phrase, textOf (Phrase.repeated p (quantifierToken q)).tokens
      = textOf p.tokens ++ quantifierText q := by simp [Phrase.tokens, quantifierToken]
  have hbars : ∀ p : Phrase, NoBars [.repeated p (quantifierToken q)] := by simp [NoBars, Phrase.isBar]
  rw [repeatedText]
  by_cases hatom : isSingleAtom (textOf (phraseTokens ps)) = true
  · obtain ⟨p, rfl, htarget⟩ := hps.legible.exists_target hatom
    have hrepeated : ∀ b : Bool, (b → ∀ t ∈ (phraseTokens [p]).head?, t.startsWithDigit = false) →
        Spells w b [.repeated p (quantifierToken q)] after := by
      intro b hb
      have hp : Spells w b [p] middle := { hps with first := hb, empty := by simp }
      exact hp.repeated htarget hq rfl after
    by_cases hdigit : (before && (textOf (phraseTokens [p])).head?.any Char.isDigit) = true
    · refine ⟨[.group groupToken []] ++ [.repeated p (quantifierToken q)], ?_,
        (Spells.separator before).append (hrepeated false (by simp)),
        (noBars_group _ _).append (hbars p), ?_, ?_⟩
      · simp only [hatom, hdigit, Bool.not_true, Bool.false_eq_true, if_false, if_true]
        simp [phraseTokens, htext, separator, groupToken]
      · rw [outline_separator (hbars p), outline_repeated htarget]
      · rw [tallyAll_append, tallyAll_singleton, tallyAll_singleton, tally_repeated]
        simp [Phrase.tally, groupTally, groupToken, tallyAll]
    · refine ⟨[.repeated p (quantifierToken q)], ?_, hrepeated before ?_, hbars p,
        outline_repeated htarget _, by simp [tally_repeated]⟩
      · simp only [hatom, hdigit, Bool.not_true, Bool.false_eq_true, if_false]
        simp [htext]
      · intro hb t ht
        obtain ⟨u, us, hu⟩ := List.exists_cons_of_ne_nil p.tokens_ne_nil
        have htu : u = t := by simpa [hu] using ht
        have hregular := hps.legible.regular u (by simp [hu])
        rw [phraseTokens_singleton, hu, head?_textOf hregular.text_ne_nil] at hdigit
        simpa [hb, ← htu, Token.startsWithDigit] using hdigit
  · refine ⟨[.repeated (.group groupToken ps) (quantifierToken q)], ?_,
      (hps.group regular_group rfl before after).repeated rfl hq rfl after, hbars _, ?_, ?_⟩
    · simp only [hatom, Bool.not_false, if_true]
      simp [htext, grouped, groupToken]
    · rw [outline_repeated rfl, outline_grouped]
    · rw [tallyAll_singleton, tally_repeated, Phrase.tally]
      rfl

theorem writesNode_repeated (q : Quantifier) (ih : WritesNode w body) :
    WritesNode w (.repeated body q) := by
  intro seen p p' t hp h
  rw [writeNode] at h
  replace h := exists_of_run_take h
  obtain ⟨text, r, hbody, h⟩ := exists_of_run_bind h
  replace h := exists_of_run_take h
  obtain ⟨rfl, rfl⟩ := eq_of_run_pure h
  obtain ⟨ps, hps⟩ := ih (hp.after false) hbody
  obtain ⟨rs, htext, hspells, hbars, houtline, htally⟩ :=
    exists_phrases_repeated hps.spells.anywhere q false
  refine ⟨rs, .solid rfl ?_ hspells hbars ?_ ?_ ?_ fun hs => ?_⟩
  · rw [hps.text, htext]
  · rw [houtline, hps.outline, nodeOutline]
  · rw [htally, hps.tally, nodeTally]
  · simpa using hps.tracks.after false
  · have hinside := (hps.refers hs).before
    rw [nodeOutline, Gathering.items_singleton]
    exact ⟨hinside.around, hinside.refers⟩

/-! ## Leaves -/

theorem Writes.quiet (hq : QuietText t ps) (hn : n.isAlternation = false)
    (houtline : nodeOutline w seen n = textOutline false t) (htally : nodeTally w seen n = {})
    (htracks : p'.Tracks (seen ++ n.headings)) (hopened : p'.opened = p.opened)
    (haround : p'.openCaptures = p.openCaptures) : Writes w seen n p t ps p' := by
  refine .solid hn hq.text (.quiet hq _ _) hq.noBars ?_ ?_ htracks fun _ => ?_
  · rw [houtline, hq.text, textOutline_quiet hq.quiet]
  · rw [htally, hq.quiet.tally]
  · rw [houtline, mentioning.items_textOutline ⟨ps, hq⟩]
    exact .still hopened haround

theorem isQuiet_dotText (w : Writing) (all : Bool) : IsQuiet (dotText w all) := by
  unfold dotText
  split_ifs
  · exact isQuiet_brackets ((passes_char (by decide : '^' ∉ ['[', ']', '\\'])).append
      (passes_escape 'n'))
  · exact ⟨_, .atom (Token.sound_of_forall rfl fun _ => rfl) rfl⟩
  · exact isQuiet_any

theorem writesNode_dot (all : Bool) : WritesNode w (.dot all) := by
  intro seen p p' t hp h
  rw [writeNode] at h
  replace h := exists_of_run_take h
  obtain ⟨rfl, rfl⟩ := eq_of_run_pure h
  obtain ⟨ps, hps⟩ := isQuiet_dotText w all
  exact ⟨ps, .quiet hps rfl (by rw [nodeOutline]) (by rw [nodeTally]; all_goals simp)
    (by simpa using hp.after false) rfl rfl⟩

theorem quietText_assertion (a : Assertion) :
    QuietText (assertionText a) [.leaf ⟨.assertion, assertionText a⟩] where
  text := by simp
  quiet := .leaf ((sound_assertion a).regular rfl rfl rfl) rfl rfl
  noBars := by simp [NoBars, Phrase.isBar]
  nonempty := by simp
  noDigit := by
    intro u hu
    have hu : ⟨.assertion, assertionText a⟩ = u := by simpa [Phrase.tokens] using hu
    rw [← hu]
    exact ((sound_assertion a).regular rfl rfl rfl).startsWithDigit_eq_false (by simp)

theorem writesNode_assertion (a : Assertion) : WritesNode w (.assertion a) := by
  intro seen p p' t hp h
  rw [writeNode] at h
  replace h := exists_of_run_take h
  obtain ⟨rfl, rfl⟩ := eq_of_run_pure h
  exact ⟨_, .quiet (quietText_assertion a) rfl (by rw [nodeOutline])
    (by rw [nodeTally]; all_goals simp) (by simpa using hp.after false) rfl rfl⟩

theorem regular_marker (hd : w.options.recursionLimit < 2 ^ 32) (target : Nat) :
    (markerToken w target).Regular := by
  unfold markerToken
  split
  · exact (sound_recursion hd).regular rfl rfl rfl
  · exact (sound_groupRecursion _ hd).regular rfl rfl rfl

theorem isMarker_markerToken (w : Writing) (target : Nat) :
    (markerToken w target).kind.isMarker := by
  unfold markerToken
  split <;> rfl

theorem recursionText_spec {target : Nat} (h : recursionText w target = .ok t) :
    t = (markerToken w target).text := by
  unfold recursionText at h
  unfold markerToken
  split at h
  · next hzero =>
    cases h
    rw [if_pos hzero]
    simp
  · next hzero =>
    rw [if_neg hzero]
    split at h
    · next i hi =>
      cases h
      rw [hi]
      simp
    · cases h

theorem writesNode_recursion (hd : w.options.recursionLimit < 2 ^ 32) (target : Nat) :
    WritesNode w (.recursion target) := by
  intro seen p p' t hp h
  rw [writeNode_recursion] at h
  replace h := exists_of_run_take h
  obtain ⟨htext, rfl⟩ := eq_of_run_lift h
  have hregular := regular_marker hd target
  have hmarker := isMarker_markerToken w target
  have hkind : (markerToken w target).kind.isLeaf ∧ (markerToken w target).isReference = false ∧
      (markerToken w target).kind ≠ .atom ∧ (markerToken w target).kind ≠ .alternation := by
    cases hk : (markerToken w target).kind <;>
      simp_all [Kind.isMarker, Kind.isLeaf, Kind.isOpen, Token.isReference]
  have hbars : NoBars [.leaf (markerToken w target)] := by simp [NoBars, Phrase.isBar, hkind.2.2.2]
  refine ⟨[.leaf (markerToken w target)], .solid rfl ?_ ?_ hbars ?_ ?_ ?_ fun _ => ?_⟩
  · simpa using recursionText_spec htext
  · exact .leaf hregular hkind.1 hkind.2.1
      (fun _ => hregular.startsWithDigit_eq_false hkind.2.2.1) _
  · rw [outline_noBars hbars, nodeOutline]
    simp [Phrase.outline]
  · rw [tallyAll_singleton, Phrase.tally, leafTally, if_pos hmarker, nodeTally]
  · simpa using hp.after false
  · have hnone : mentioning.items (nodeOutline w seen (.recursion target)) = [] := by
      rw [nodeOutline, Gathering.items_singleton, Gathering.item]
      unfold markerToken
      split <;> rfl
    rw [hnone]
    exact .still rfl rfl

theorem headings_leaf (h : IsLeaf n) : n.headings = [] := by
  rcases h.eq with ⟨c, i, rfl⟩ | ⟨c, rfl⟩ | ⟨targets, i, rfl⟩ <;> simp

theorem isAlternation_leaf (h : IsLeaf n) : n.isAlternation = false := by
  rcases h.eq with ⟨c, i, rfl⟩ | ⟨c, rfl⟩ | ⟨targets, i, rfl⟩ <;> rfl

theorem isLeaf_of_isCaselessLeaf (h : w.isCaselessLeaf n = true) : IsLeaf n := by
  cases n <;> first | trivial | simp [Writing.isCaselessLeaf, leafCase?] at h

/-- The references of a leaf refer back from where it has been asked what came before. -/
theorem follows_leaf (hs : w.options.strict = true) (hn : w.numbering.Counts) (hleaf : IsLeaf n)
    (hplain : Plain n) {before expand : Bool}
    (h : (leafText w before expand n).run { p with afterReference := false } = .ok (t, p'))
    (hp : p.Tracks seen) : Follows p p' (mentioning.items (nodeOutline w seen n)) := by
  rw [nodeOutline_leaf hleaf]
  exact (follows_leafText hs hn hleaf hplain h hp.opened _ _).before

theorem writesNode_leaf (hn : w.numbering.Counts) (n : Node) (hleaf : IsLeaf n)
    (hplain : Plain n) (hw : writeNode w n = writeLeaf w n) : WritesNode w n := by
  intro seen p p' t hp h
  rw [hw] at h
  replace h := exists_of_run_take h
  have htally := nodeTally_leaf (w := w) hleaf seen
  have hhead := headings_leaf hleaf
  have hsolid := isAlternation_leaf hleaf
  split at h
  · next hcaseless =>
    obtain ⟨text, q, htext, h⟩ := exists_of_run_bind h
    obtain ⟨rfl, rfl⟩ := eq_of_run_pure h
    obtain ⟨ps, hps⟩ := exists_phrases_leaf hn hleaf hplain (hp.after false) htext
    refine ⟨[.group modifierToken ps], .solid hsolid ?_
      (hps.spells.group regular_modifier rfl _ _) (noBars_group _ _) ?_ ?_ ?_
      fun hs => follows_leaf hs hn hleaf hplain htext hp⟩
    · simp [hps.text, modifierToken]
    · rw [outline_modifier, hps.outline, nodeOutline_leaf hleaf, hcaseless]
      simp
    · rw [tallyAll_singleton, Phrase.tally, hps.tally, htally]
      rfl
    · simpa [hhead] using hps.tracks
  · next hcaseless =>
    obtain ⟨ps, hps⟩ := exists_phrases_leaf hn hleaf hplain (hp.after false) h
    refine ⟨ps, .solid hsolid hps.text hps.spells hps.noBars ?_ (hps.tally.trans htally.symm) ?_
      fun hs => follows_leaf hs hn hleaf hplain h hp⟩
    · rw [hps.outline, nodeOutline_leaf hleaf]
      simp [hcaseless]
    · simpa [hhead] using hps.tracks

end Diglot.Emitted
