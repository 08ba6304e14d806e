import Diglot.Proofs.Emitted.Written

/-!
# Written sequences, alternations and trees

The texts of alternatives are joined by bars, and those of the parts of a sequence by nothing. A run
of leaves that ignore case shares a modifier group, which may still be open when the rest of the
sequence is written. From the lemmas for each node follows the result for trees (`writesNode`).
-/

namespace Diglot.Emitted

open Diglot.Core

variable {w : Writing} {n : Node} {ns : List Node} {ps fs run : List Phrase} {seen : List Heading}
  {inRun : Bool} {p q p' : Progress} {first t : Text}

/-! ## Alternations -/

/-- The texts written for alternatives are those of phrases that say what the alternatives are meant
to say. -/
structure WritesAll (w : Writing) (seen : List Heading) (ns : List Node) (p : Progress)
    (texts : List Text) (parts : List (List Phrase)) (p' : Progress) : Prop where
  texts : texts = parts.map fun ps => textOf (phraseTokens ps)
  length : parts.length = ns.length
  spells : Spells w false (joinBars parts) p'.afterReference
  outlines : parts.map (outline false) = alternativeOutlines w seen ns
  tally : tallyAll (joinBars parts) = nodesTally w seen ns
  tracks : p'.Tracks (seen ++ Node.headingsAll ns)
  refers : w.options.strict = true →
    Follows p p' (mentioning.family (alternativeOutlines w seen ns))

/-- Whenever the nodes are written as alternatives, their texts are those of phrases. -/
def WritesNodes (w : Writing) (ns : List Node) : Prop :=
  ∀ {seen : List Heading} {p p' : Progress} {texts : List Text}, p.Tracks seen →
    (writeAll w ns).run p = .ok (texts, p') → ∃ parts, WritesAll w seen ns p texts parts p'

theorem writesNodes_nil : WritesNodes w [] := by
  intro seen p p' texts hp h
  obtain ⟨rfl, rfl⟩ := eq_of_run_pure h
  exact ⟨[], rfl, rfl, .nil (by simp), rfl, rfl, by simpa using hp, fun _ => .still rfl rfl⟩

theorem writesNodes_cons (hn : WritesNode w n) (hns : WritesNodes w ns) :
    WritesNodes w (n :: ns) := by
  intro seen p p' texts hp h
  rw [writeAll] at h
  obtain ⟨first, q, hfirst, h⟩ := exists_of_run_bind h
  obtain ⟨rest, r, hrest, h⟩ := exists_of_run_bind h
  obtain ⟨rfl, rfl⟩ := eq_of_run_pure h
  obtain ⟨ps, hps⟩ := hn hp hfirst
  obtain ⟨parts, hparts⟩ := hns hps.tracks hrest
  refine ⟨ps :: parts, ?_, ?_, ?_, ?_, ?_, ?_, fun hs => (hps.refers hs).trans (hparts.refers hs)⟩
  · simp [hps.text, hparts.texts]
  · simp [hparts.length]
  · cases ns with
    | nil =>
      -- after the last alternative nothing more is written
      obtain ⟨-, rfl⟩ := eq_of_run_pure hrest
      rw [List.eq_nil_of_length_eq_zero hparts.length]
      exact hps.spells.anywhere
    | cons m ms =>
      obtain ⟨qs, more, rfl⟩ : ∃ qs more, parts = qs :: more :=
        List.exists_cons_of_length_eq_add_one hparts.length
      exact hps.spells.anywhere.bar hparts.spells
  · rw [List.map_cons, hps.outline, hparts.outlines, alternativeOutlines]
  · have htally := hparts.tally
    rw [tallyAll_joinBars] at htally ⊢
    rw [List.foldr_cons, htally, hps.tally, nodesTally]
  · simpa [List.append_assoc] using hparts.tracks

theorem writesNode_alternation (ih : WritesNodes w ns) : WritesNode w (.alternation ns) := by
  intro seen p p' t hp h
  rw [writeNode] at h
  replace h := exists_of_run_take h
  obtain ⟨texts, q, htexts, h⟩ := exists_of_run_bind h
  obtain ⟨rfl, rfl⟩ := eq_of_run_pure h
  obtain ⟨parts, hparts⟩ := ih (hp.after false) htexts
  refine ⟨joinBars parts, ?_, ?_, ?_, ?_, ?_, ?_, fun hs => ?_⟩
  · rw [textOf_joinBars, ← hparts.texts]
  · simpa [Node.isAlternation] using hparts.spells
  · simp [Node.isAlternation]
  · rw [outline_joinBars, hparts.outlines, nodeOutline]
  · rw [hparts.tally, nodeTally]
  · simpa using hparts.tracks
  · rw [nodeOutline, Gathering.items_choose]
    exact (hparts.refers hs).before

/-! ## Sequences -/

/-- The text written for the parts of a sequence is that of phrases that say what the parts are meant
to say. If a modifier group is open, the phrases of `run` still belong to it. -/
structure WritesSequence (w : Writing) (seen : List Heading) (ns : List Node) (inRun : Bool)
    (p : Progress) (t : Text) (run ps : List Phrase) (p' : Progress) : Prop where
  noRun : inRun = false → run = []
  text : t = (if inRun then textOf (phraseTokens run) ++ [')'] else []) ++ textOf (phraseTokens ps)
  runSpells : Spells w p.afterReference run true
  spells : Spells w (p.afterReference && !inRun) ps p'.afterReference
  runBars : NoBars run
  noBars : NoBars ps
  outline : outline true run ++ outline false ps = sequenceOutline w seen ns
  tally : tallyAll run ++ tallyAll ps = nodesTally w seen ns
  tracks : p'.Tracks (seen ++ Node.headingsAll ns)
  refers : w.options.strict = true → Follows p p' (mentioning.items (sequenceOutline w seen ns))

/-- Whenever the nodes are written as parts of a sequence, their text is that of phrases. -/
def WritesParts (w : Writing) (ns : List Node) : Prop :=
  ∀ {seen : List Heading} {inRun : Bool} {p p' : Progress} {t : Text}, p.Tracks seen →
    (writeParts w inRun ns).run p = .ok (t, p') →
      ∃ run ps, WritesSequence w seen ns inRun p t run ps p'

theorem noBars_nil : NoBars [] := by simp [NoBars]

@[simp] theorem outline_nil (caseless : Bool) : outline caseless [] = [] := rfl

theorem outline_append {qs : List Phrase} (hp : NoBars ps) (hq : NoBars qs) (caseless : Bool) :
    outline caseless (ps ++ qs) = outline caseless ps ++ outline caseless qs := by
  rw [outline_noBars (hp.append hq), outline_noBars hp, outline_noBars hq, List.flatMap_append]

theorem writesParts_nil : WritesParts w [] := by
  intro seen inRun p p' t hp h
  rw [writeParts] at h
  obtain ⟨rfl, rfl⟩ := eq_of_run_pure h
  refine ⟨[], [], fun _ => rfl, ?_, .nil fun _ => rfl, .nil fun h => ?_, noBars_nil, noBars_nil, ?_,
    rfl, by simpa using hp, fun _ => .still rfl rfl⟩
  · cases inRun <;> rfl
  · exact (Bool.and_eq_true _ _ ▸ h).1
  · rw [outline_nil, outline_nil, sequenceOutline]
    rfl

theorem follows_cons (hn : w.options.strict = true → Follows p q (mentioning.items (nodeOutline w seen n)))
    (hns : w.options.strict = true →
      Follows q p' (mentioning.items (sequenceOutline w (seen ++ n.headings) ns)))
    (hs : w.options.strict = true) :
    Follows p p' (mentioning.items (sequenceOutline w seen (n :: ns))) := by
  rw [sequenceOutline, Gathering.items_append]
  exact (hn hs).trans (hns hs)

/-- A leaf that ignores case joins the modifier group that is open, or opens one. -/
theorem writesSequence_caseless (hn : w.isCaselessLeaf n = true)
    (hfirst : SpellsLeaf w seen n false p.afterReference first fs q)
    (hfollows : w.options.strict = true → Follows p q (mentioning.items (nodeOutline w seen n)))
    (hrest : WritesSequence w (seen ++ n.headings) ns true q t run ps p') :
    ∃ run' ps', WritesSequence w seen (n :: ns) inRun p
      ((if inRun then [] else "(?i:".toList) ++ first ++ t) run' ps' p' := by
  have hleaf := isLeaf_of_isCaselessLeaf hn
  have hbars := hfirst.noBars.append hrest.runBars
  have hspells := hfirst.spells.append hrest.runSpells
  have htracks : p'.Tracks (seen ++ Node.headingsAll (n :: ns)) := by
    simpa [List.append_assoc] using hrest.tracks
  have houtline : outline true (fs ++ run) ++ outline false ps = sequenceOutline w seen (n :: ns) := by
    rw [outline_append hfirst.noBars hrest.runBars, List.append_assoc, hrest.outline,
      hfirst.outline, sequenceOutline, nodeOutline_leaf hleaf, hn]
    simp
  have htally : tallyAll (fs ++ run) ++ tallyAll ps = nodesTally w seen (n :: ns) := by
    rw [tallyAll_append, Tally.append_assoc, hrest.tally, hfirst.tally, nodesTally,
      nodeTally_leaf hleaf]
  have hrestSpells : Spells w false ps p'.afterReference := by simpa using hrest.spells
  have hrefers := follows_cons hfollows hrest.refers
  cases inRun with
  | true =>
    refine ⟨fs ++ run, ps, by simp, ?_, hspells, by simpa using hrestSpells, hbars, hrest.noBars,
      houtline, htally, htracks, hrefers⟩
    simp [hfirst.text, hrest.text]
  | false =>
    refine ⟨[], [.group modifierToken (fs ++ run)] ++ ps, by simp, ?_, .nil fun _ => rfl,
      (hspells.group regular_modifier rfl _ false).append hrestSpells, noBars_nil,
      (noBars_group _ _).append hrest.noBars, ?_, ?_, htracks, hrefers⟩
    · simp [hfirst.text, hrest.text, phraseTokens, modifierToken]
    · rw [outline_append (noBars_group _ _) hrest.noBars, outline_modifier, outline_nil, houtline]
      rfl
    · rw [tallyAll_append, tallyAll_singleton, Phrase.tally, ← htally]
      simp [tallyAll, groupTally, modifierToken]

/-- Any other part closes the modifier group that is open. An alternation gets parentheses. -/
theorem writesSequence_other (hfirst : Writes w seen n p first fs q)
    (hrest : WritesSequence w (seen ++ n.headings) ns false q t run ps p') :
    ∃ run' ps', WritesSequence w seen (n :: ns) inRun p
      ((if inRun then [')'] else []) ++ (if n.isAlternation then grouped first else first) ++ t)
      run' ps' p' := by
  obtain rfl := hrest.noRun rfl
  have htracks : p'.Tracks (seen ++ Node.headingsAll (n :: ns)) := by
    simpa [List.append_assoc] using hrest.tracks
  have hspells : Spells w q.afterReference ps p'.afterReference := by simpa using hrest.spells
  have houtline : outline false fs ++ outline false ps = sequenceOutline w seen (n :: ns) := by
    rw [sequenceOutline, ← hrest.outline, hfirst.outline]
    rfl
  have htally : tallyAll fs ++ tallyAll ps = nodesTally w seen (n :: ns) := by
    rw [nodesTally, ← hrest.tally, hfirst.tally]
    simp [tallyAll]
  have hrefers := follows_cons hfirst.refers hrest.refers
  have hbefore : ∀ {b : Bool} {gs : List Phrase}, Spells w p.afterReference gs b →
      Spells w (p.afterReference && !inRun) gs b := by
    intro b gs h
    cases inRun with
    | true => simpa using h.anywhere
    | false => simpa using h
  by_cases hn : n.isAlternation = true
  · refine ⟨[], [.group groupToken fs] ++ ps, fun _ => rfl, ?_, .nil fun _ => rfl,
      (hbefore (hfirst.spells.group regular_group rfl _ _)).append hspells, noBars_nil,
      (noBars_group _ _).append hrest.noBars, ?_, ?_, htracks, hrefers⟩
    · cases inRun <;>
        simp [hn, hfirst.text, hrest.text, grouped, phraseTokens, groupToken]
    · rw [outline_append (noBars_group _ _) hrest.noBars, outline_grouped, outline_nil, houtline]
      rfl
    · rw [tallyAll_append, tallyAll_singleton, Phrase.tally, ← htally]
      simp [tallyAll, groupTally, groupToken]
  · have hsolid : n.isAlternation = false := by simpa using hn
    refine ⟨[], fs ++ ps, fun _ => rfl, ?_, .nil fun _ => rfl,
      (hbefore (hfirst.spells_solid hsolid)).append hspells, noBars_nil,
      (hfirst.noBars hsolid).append hrest.noBars, ?_, ?_, htracks, hrefers⟩
    · cases inRun <;> simp [hsolid, hfirst.text, hrest.text, phraseTokens]
    · rw [outline_append (hfirst.noBars hsolid) hrest.noBars, outline_nil, houtline]
      rfl
    · rw [tallyAll_append, ← htally]
      simp [tallyAll]

theorem writesParts_cons (hc : w.numbering.Counts) (hplain : Plain n) (hn : WritesNode w n)
    (hns : WritesParts w ns) : WritesParts w (n :: ns) := by
  intro seen inRun p p' t hp h
  rw [writeParts] at h
  split at h
  · next hcaseless =>
    replace h := exists_of_run_take h
    obtain ⟨first, q, hfirst, h⟩ := exists_of_run_bind h
    obtain ⟨rest, r, hrest, h⟩ := exists_of_run_bind h
    obtain ⟨rfl, rfl⟩ := eq_of_run_pure h
    have hleaf := isLeaf_of_isCaselessLeaf hcaseless
    obtain ⟨fs, hfs⟩ := exists_phrases_leaf hc hleaf hplain (hp.after false) hfirst
    have htracks : q.Tracks (seen ++ n.headings) := by simpa [headings_leaf hleaf] using hfs.tracks
    obtain ⟨run, ps, hps⟩ := hns htracks hrest
    exact writesSequence_caseless hcaseless hfs
      (fun hs => follows_leaf hs hc hleaf hplain hfirst hp) hps
  · obtain ⟨first, q, hfirst, h⟩ := exists_of_run_bind h
    obtain ⟨rest, r, hrest, h⟩ := exists_of_run_bind h
    obtain ⟨rfl, rfl⟩ := eq_of_run_pure h
    obtain ⟨fs, hfs⟩ := hn hp hfirst
    obtain ⟨run, ps, hps⟩ := hns hfs.tracks hrest
    exact writesSequence_other hfs hps

theorem writesNode_sequence (ih : WritesParts w ns) : WritesNode w (.sequence ns) := by
  intro seen p p' t hp h
  rw [writeNode] at h
  obtain ⟨run, ps, hps⟩ := ih hp h
  obtain rfl := hps.noRun rfl
  refine ⟨ps, .solid rfl ?_ (by simpa using hps.spells) hps.noBars ?_ ?_
    (by simpa using hps.tracks) fun hs => ?_⟩
  · simpa using hps.text
  · rw [nodeOutline, ← hps.outline]
    rfl
  · rw [nodeTally, ← hps.tally]
    simp [tallyAll]
  · rw [nodeOutline]
    exact hps.refers hs

/-! ## Trees -/

mutual

/-- **What is written for a plain tree is the text of phrases that say what the tree is meant to
say.** -/
theorem writesNode (hc : w.numbering.Counts) (hd : w.options.recursionLimit < 2 ^ 32) :
    ∀ (n : Node), Plain n → WritesNode w n
  | .empty, _ => writesNode_empty
  | .dot all, _ => writesNode_dot all
  | .assertion a, _ => writesNode_assertion a
  | .recursion target, _ => writesNode_recursion hd target
  | .literal c i, hp => writesNode_leaf hc (.literal c i) trivial hp (by rw [writeNode])
  | .cls c, hp => writesNode_leaf hc (.cls c) trivial hp (by rw [writeNode])
  | .backreference targets i, hp =>
    writesNode_leaf hc (.backreference targets i) trivial hp (by rw [writeNode])
  | .sequence ns, hp => writesNode_sequence (writesParts hc hd ns hp)
  | .alternation ns, hp => writesNode_alternation (writesNodes hc hd ns hp)
  | .capture _ _ _ _ body, hp => writesNode_capture hp.1 (writesNode hc hd body hp.2)
  | .group body, hp => writesNode_group (writesNode hc hd body hp)
  | .atomic body, hp => writesNode_atomic (writesNode hc hd body hp)
  | .look l body, hp => writesNode_look l (writesNode hc hd body hp)
  | .repeated body q, hp => writesNode_repeated q (writesNode hc hd body hp)

theorem writesNodes (hc : w.numbering.Counts) (hd : w.options.recursionLimit < 2 ^ 32) :
    ∀ (ns : List Node), AllPlain ns → WritesNodes w ns
  | [], _ => writesNodes_nil
  | n :: ns, hp => writesNodes_cons (writesNode hc hd n hp.1) (writesNodes hc hd ns hp.2)

theorem writesParts (hc : w.numbering.Counts) (hd : w.options.recursionLimit < 2 ^ 32) :
    ∀ (ns : List Node), AllPlain ns → WritesParts w ns
  | [], _ => writesParts_nil
  | n :: ns, hp =>
    writesParts_cons hc hp.1 (writesNode hc hd n hp.1) (writesParts hc hd ns hp.2)

end

end Diglot.Emitted
