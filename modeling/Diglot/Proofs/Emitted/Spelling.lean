import Diglot.Proofs.Emitted.Intent

/-!
# Spelling

The text that is written for a plain core tree is that of legible phrases, and these say what the
tree is meant to say. A tree is plain if its property names and group names do not break out of what
stands around them.

`Spells before ps after` collects what is needed to put texts next to each other: `before` and
`after` say whether a reference may end directly before and after the phrases.
-/

namespace Diglot.Emitted

open Diglot.Core Unicode

variable {t : Text} {ps : List Phrase} {p p' : Progress} {seen : List Heading} {w : Writing}
  {expand : Bool} {targets : List Nat}

/-! ## Plain trees -/

/-- A group name that ends at its bracket and makes no look around of its group. -/
def PlainTitle (s : String) : Prop :=
  '>' ∉ s.toList ∧ ∀ c ∈ s.toList.head?, c ≠ '=' ∧ c ≠ '!'

mutual

/-- All names in the tree are plain. -/
def Plain : Node → Prop
  | .cls c => PlainClass c
  | .sequence ns | .alternation ns => AllPlain ns
  | .capture _ name _ _ body => (∀ s ∈ name, PlainTitle s) ∧ Plain body
  | .group body | .atomic body | .look _ body | .repeated body _ => Plain body
  | _ => True

/-- All names in the trees are plain. -/
def AllPlain : List Node → Prop
  | [] => True
  | n :: ns => Plain n ∧ AllPlain ns

end

/-! ## Phrases next to each other -/

/-- Legible phrases that refer to captures of the pattern. If `before` holds, they do not begin with
a digit; and where they end in a reference, `after` holds. -/
structure Spells (w : Writing) (before : Bool) (ps : List Phrase) (after : Bool) : Prop where
  legible : Legible ps
  references : ∀ t ∈ phraseTokens ps, ∀ i, t.kind = .backreference i →
    i ≤ w.numbering.entries.length
  first : before → ∀ t ∈ (phraseTokens ps).head?, t.startsWithDigit = false
  last : ∀ t ∈ (phraseTokens ps).getLast?, t.isReference → after
  empty : ps = [] → before → after

namespace Spells

variable {before after middle : Bool} {qs : List Phrase}

theorem nil (h : before → after) : Spells w before [] after where
  legible := .nil
  references := by simp [phraseTokens]
  first := by simp [phraseTokens]
  last := by simp [phraseTokens]
  empty _ := h

theorem append (hp : Spells w before ps middle) (hq : Spells w middle qs after) :
    Spells w before (ps ++ qs) after where
  legible := by
    refine hp.legible.append hq.legible ?_
    intro t ht u hu hr
    exact hq.first (hp.last t ht hr) u hu
  references := by
    intro t ht
    rw [phraseTokens_append, List.mem_append] at ht
    exact ht.elim (hp.references t) (hq.references t)
  first := by
    intro hb u hu
    rw [phraseTokens_append, List.head?_append] at hu
    cases hhead : (phraseTokens ps).head? with
    | some v => exact hp.first hb u (by simpa [hhead] using hu)
    | none =>
      have hnil := phraseTokens_eq_nil (List.head?_eq_none_iff.mp hhead)
      exact hq.first (hp.empty hnil hb) u (by simpa [hhead] using hu)
  last := by
    intro u hu hr
    rw [phraseTokens_append, List.getLast?_append] at hu
    cases hlast : (phraseTokens qs).getLast? with
    | some v => exact hq.last u (by simpa [hlast] using hu) hr
    | none =>
      have hnil := phraseTokens_eq_nil (List.getLast?_eq_none_iff.mp hlast)
      exact hq.empty hnil (hp.last u (by simpa [hlast] using hu) hr)
  empty := by
    intro hnil hb
    obtain ⟨hpnil, hqnil⟩ := List.append_eq_nil_iff.mp hnil
    exact hq.empty hqnil (hp.empty hpnil hb)

/-- What may follow a reference may follow anything. -/
theorem anywhere (h : Spells w before ps after) : Spells w false ps after :=
  { h with first := by simp, empty := by simp }

/-- Phrases that end in no reference may end in one as far as the next are concerned. -/
theorem loose (h : Spells w before ps after) : Spells w before ps true :=
  { h with last := fun _ _ _ => rfl, empty := fun _ _ => rfl }

/-- A group can stand anywhere, and what follows it is free. -/
theorem group {opener : Token} (ho : opener.Regular) (hk : opener.kind.isOpen)
    (hb : Spells w before ps after) (b a : Bool) : Spells w b [.group opener ps] a where
  legible := .group ho hk hb.legible
  references := by
    intro t ht i hi
    rw [phraseTokens_singleton, Phrase.tokens, List.mem_cons, List.mem_append,
      List.mem_singleton] at ht
    rcases ht with rfl | ht | rfl
    · rw [hi] at hk
      cases hk
    · exact hb.references t ht i hi
    · cases hi
  first := by
    intro _ t ht
    have hopener : opener = t := by simpa [Phrase.tokens] using ht
    rw [← hopener]
    refine ho.startsWithDigit_eq_false ?_
    rintro h
    rw [h] at hk
    cases hk
  last := by
    intro t ht hr
    rw [phraseTokens_singleton, Phrase.tokens, ← List.cons_append, List.getLast?_concat] at ht
    rw [← Option.some.inj ht] at hr
    cases hr
  empty := by simp

/-- The empty group that keeps a digit apart from a number. -/
theorem separator (b : Bool) : Spells w b [.group groupToken []] false :=
  group regular_group rfl (nil fun h : (false : Bool) => h) b false

/-- A part with its quantifier can stand wherever the part itself can. -/
theorem repeated {p : Phrase} (hp : Spells w before [p] after) (ht : p.isTarget) {q : Token}
    (hq : q.Regular) (hk : q.kind.isQuantifier) (a : Bool) :
    Spells w before [.repeated p q] a where
  legible := .repeated hp.legible ht hq hk
  references := by
    intro t h i hi
    rw [phraseTokens_singleton, Phrase.tokens, List.mem_append, List.mem_singleton] at h
    rcases h with h | rfl
    · exact hp.references t (by simpa using h) i hi
    · rw [hi] at hk
      cases hk
  first := by
    intro hb t h
    refine hp.first hb t ?_
    obtain ⟨u, us, hu⟩ := List.exists_cons_of_ne_nil p.tokens_ne_nil
    simpa [Phrase.tokens, hu] using h
  last := by
    intro t h hr
    rw [phraseTokens_singleton, Phrase.tokens, List.getLast?_concat] at h
    obtain ⟨i, hi⟩ := Token.isReference_iff.mp hr
    rw [← Option.some.inj h] at hi
    rw [hi] at hk
    cases hk
  empty := by simp

/-- A token that is no reference can stand where its first character can. -/
theorem leaf {t : Token} (h : t.Regular) (hk : t.kind.isLeaf) (hr : t.isReference = false)
    (hd : before → t.startsWithDigit = false) (a : Bool) : Spells w before [.leaf t] a where
  legible := .leaf h hk
  references := by
    intro u hu i hi
    have htu : u = t := by simpa [Phrase.tokens] using hu
    rw [← htu, Token.isReference, hi] at hr
    cases hr
  first := by simpa [Phrase.tokens] using hd
  last := by simp [Phrase.tokens, hr]
  empty := by simp

theorem reference {i : Nat} (hpos : 0 < i) (hi : i ≤ w.numbering.entries.length) (b : Bool) :
    Spells w b [.leaf (referenceToken i)] true where
  legible := .leaf (regular_reference hpos) rfl
  references := by
    intro t ht j hj
    have hti : t = referenceToken i := by simpa [Phrase.tokens] using ht
    rw [hti] at hj
    cases hj
    exact hi
  first := by
    intro _ t ht
    have hti : referenceToken i = t := by simpa [Phrase.tokens] using ht
    rw [← hti]
    exact (regular_reference hpos).startsWithDigit_eq_false (by simp [referenceToken])
  last _ _ _ := rfl
  empty := by simp

theorem quiet (h : QuietText t ps) (b a : Bool) : Spells w b ps a where
  legible := h.quiet.legible
  references := by
    intro u hu i hi
    have hr := h.quiet.noReference u hu
    rw [Token.isReference, hi] at hr
    cases hr
  first _ := h.noDigit
  last := by
    intro u hu hr
    rw [h.quiet.noReference u (List.mem_of_getLast? hu)] at hr
    cases hr
  empty hnil := absurd hnil h.nonempty

/-- A bar keeps apart what stands on its two sides. -/
theorem bar (hp : Spells w before ps middle) (hq : Spells w false qs after) :
    Spells w before (ps ++ .leaf barToken :: qs) after := by
  have hbar : Spells w true [.leaf barToken] false :=
    .leaf regular_bar rfl rfl (fun _ => rfl) false
  exact hp.loose.append (hbar.append hq)

theorem joinBars : ∀ {parts : List (List Phrase)}, (∀ ps ∈ parts, Spells w false ps true) →
    Spells w false (joinBars parts) true
  | [], _ => .nil fun _ => rfl
  | [ps], h => h ps (by simp)
  | ps :: qs :: rest, h => by
    have hrest : Spells w false (Emitted.joinBars (qs :: rest)) true :=
      joinBars fun x hx => h x (by simp [hx])
    exact (h ps (by simp)).bar hrest

end Spells

/-! ## Groups that are erased -/

theorem noBars_group (opener : Token) (body : List Phrase) : NoBars [.group opener body] := by
  simp [NoBars, Phrase.isBar]

@[simp] theorem outline_grouped (caseless : Bool) (ps : List Phrase) :
    outline caseless [.group groupToken ps] = outline caseless ps := by
  have hmodifier : (decide (groupToken.text = modifierText)) = false := by decide
  rw [outline_noBars (noBars_group _ _)]
  simp [Phrase.outline, hmodifier, outline, show groupToken.kind = .groupOpen from rfl]

@[simp] theorem outline_modifier (caseless : Bool) (ps : List Phrase) :
    outline caseless [.group modifierToken ps] = outline true ps := by
  have hmodifier : (decide (modifierToken.text = modifierText)) = true := by decide
  rw [outline_noBars (noBars_group _ _)]
  simp [Phrase.outline, hmodifier, outline, show modifierToken.kind = .groupOpen from rfl]

/-- An empty group says nothing. -/
theorem outline_separator (h : NoBars ps) (caseless : Bool) :
    outline caseless ([.group groupToken []] ++ ps) = outline caseless ps := by
  have hempty := outline_grouped caseless []
  rw [outline_noBars (noBars_group _ _)] at hempty
  rw [outline_noBars ((noBars_group _ _).append h), List.flatMap_append, hempty, outline_noBars h]
  rfl

theorem tallyAll_joinBars : ∀ parts : List (List Phrase),
    tallyAll (joinBars parts) = parts.foldr (fun ps a => tallyAll ps ++ a) {}
  | [] => rfl
  | [ps] => by simp [joinBars]
  | ps :: qs :: rest => by
    have hrest := tallyAll_joinBars (qs :: rest)
    have hbar : tallyAll [.leaf barToken] = {} := rfl
    rw [joinBars, tallyAll_append, ← List.singleton_append, tallyAll_append, hbar,
      Tally.nil_append, hrest]
    · rfl
    · simp

/-! ## Progress -/

/-- The progress of the writer once the captures `seen` have been opened. -/
structure Progress.Tracks (p : Progress) (seen : List Heading) : Prop where
  opened : p.opened = seen.length
  names : ∀ s, s ∈ p.names ↔ ∃ h ∈ seen, h.hidden = false ∧ h.name = some s

theorem Progress.Tracks.after (h : p.Tracks seen) (b : Bool) :
    { p with afterReference := b }.Tracks seen :=
  ⟨h.opened, h.names⟩

/-! ## Leaves -/

/-- What the text of quiet phrases says by itself is what the phrases say. -/
theorem textOutline_quiet (h : Quiet ps) (caseless : Bool) :
    textOutline caseless (textOf (phraseTokens ps)) = outline caseless ps := by
  have hfits : ∀ u ∈ phraseTokens ps, u.Fits := by
    intro u hu i hi
    have hr := h.noReference u hu
    rw [Token.isReference, hi] at hr
    cases hr
  rw [textOutline, h.legible.scan hfits]
  simp only [parse_phraseTokens h.legible.wellFormed]

/-- The text of a leaf is that of phrases that say what the leaf is meant to say. -/
structure SpellsLeaf (w : Writing) (seen : List Heading) (n : Node) (expand before : Bool)
    (t : Text) (ps : List Phrase) (p : Progress) : Prop where
  text : t = textOf (phraseTokens ps)
  spells : Spells w before ps p.afterReference
  noBars : NoBars ps
  outline : ∀ caseless, outline caseless ps = leafOutline w seen caseless expand n
  tally : tallyAll ps = {}
  tracks : p.Tracks seen

theorem escapeChar_digit {c : Char} (h : (escapeChar c).head?.any Char.isDigit = true) :
    c.isDigit := by
  unfold escapeChar escapePlain at h
  split_ifs at h <;> simp_all

theorem exists_phrases_literal (w : Writing) (c : Char) (ignoreCase expand before : Bool)
    (hp : p.Tracks seen) :
    ∃ ps, SpellsLeaf w seen (.literal c ignoreCase) expand before
      (literalText w c ignoreCase before expand) ps p := by
  cases hv : (if expand && ignoreCase then caseVariants c else []) with
  | cons d ds =>
    have htext : ∀ b, literalText w c ignoreCase b expand =
        '[' :: ((escapeInClass w.options.target.hasUnicodeSets c
          ++ (d :: ds).flatMap (escapeInClass w.options.target.hasUnicodeSets)) ++ [']']) := by
      intro b
      rw [literalText, hv]
      simp
    have hvariants : Passes ((d :: ds).flatMap (escapeInClass w.options.target.hasUnicodeSets)) :=
      passes_flatMap (passes_escapeInClass _)
    obtain ⟨ps, hps⟩ := isQuiet_brackets ((passes_escapeInClass _ c).append hvariants)
    refine ⟨ps, by rw [htext, hps.text], .quiet hps _ _, hps.noBars, fun caseless => ?_,
      hps.quiet.tally, hp⟩
    rw [leafOutline, htext, hps.text, textOutline_quiet hps.quiet]
  | nil =>
    have htext : ∀ b, literalText w c ignoreCase b expand =
        (if b && c.isDigit then separator else []) ++ escapeChar c := by
      intro b
      rw [literalText, hv]
    have hregular := regular_atom (sound_escapeChar c)
    have hquiet : Quiet [.leaf ⟨.atom, escapeChar c⟩] := .leaf hregular rfl rfl
    have houtline : ∀ caseless, leafOutline w seen caseless expand (.literal c ignoreCase)
        = outline caseless [.leaf ⟨.atom, escapeChar c⟩] := by
      intro caseless
      rw [leafOutline, htext, ← textOutline_quiet hquiet]
      simp
    by_cases hd : (before && c.isDigit) = true
    · -- a digit after a reference is kept apart by an empty group
      refine ⟨[.group groupToken []] ++ [.leaf ⟨.atom, escapeChar c⟩], ?_, ?_, ?_, ?_, rfl, hp⟩
      · rw [htext, if_pos hd]
        simp [phraseTokens, separator, groupToken]
      · exact (Spells.separator before).append (.leaf hregular rfl rfl (by simp) _)
      · simp [NoBars, Phrase.isBar]
      · intro caseless
        rw [houtline, outline_separator (by simp [NoBars, Phrase.isBar])]
    · refine ⟨[.leaf ⟨.atom, escapeChar c⟩], ?_, ?_, ?_, ?_, rfl, hp⟩
      · rw [htext, if_neg hd]
        simp
      · refine .leaf hregular rfl rfl (fun hb => ?_) _
        rw [Bool.eq_false_iff]
        intro hstart
        exact hd (by simp [hb, escapeChar_digit hstart])
      · simp [NoBars, Phrase.isBar]
      · exact fun caseless => (houtline caseless).symm

theorem exists_phrases_class {c : CharClass} (hc : PlainClass c)
    (h : classLeaf (w.classStyle (expand && c.ignoreCase)) c = .ok t) (before : Bool)
    (hp : p.Tracks seen) : ∃ ps, SpellsLeaf w seen (.cls c) expand before t ps p := by
  obtain ⟨ps, hps⟩ := isQuiet_classLeaf hc h
  refine ⟨ps, hps.text, .quiet hps _ _, hps.noBars, fun caseless => ?_, hps.quiet.tally, hp⟩
  rw [leafOutline, h, hps.text]
  exact (textOutline_quiet hps.quiet caseless).symm

/-- What is written for a backreference, by how many captures it means. -/
theorem backreferenceText_cases (hn : w.numbering.Counts)
    (h : (backreferenceText w targets).run p = .ok (t, p')) :
    (w.numbering.meant p.opened targets = [] ∧ t = never ∧ p' = p) ∨
    (∃ i, w.numbering.meant p.opened targets = [i] ∧ t = referenceText i ∧
      p' = { p with afterReference := true }) ∨
    (w.numbering.meant p.opened targets ≠ [] ∧ p' = p ∧
      t = grouped (['|'].intercalate
        ((w.numbering.meant p.opened targets).map referenceText))) := by
  rw [← reverse_candidates hn]
  unfold backreferenceText at h
  split at h
  · next hempty =>
    obtain ⟨rfl, rfl⟩ := eq_of_run_pure h
    exact .inl ⟨by simp [List.isEmpty_iff.mp hempty, candidates], rfl, rfl⟩
  · obtain ⟨q, _, hget, h⟩ := exists_of_run_bind h
    cases hget
    replace h := run_of_guard (run_of_guard (run_of_guard h))
    split at h
    · next hfound =>
      obtain ⟨rfl, rfl⟩ := eq_of_run_pure h
      exact .inl ⟨by simp [hfound], rfl, rfl⟩
    · next i hfound =>
      obtain ⟨_, _, hset, h⟩ := exists_of_run_bind h
      cases hset
      obtain ⟨rfl, rfl⟩ := eq_of_run_pure h
      exact .inr (.inl ⟨i, by simp [hfound], rfl, rfl⟩)
    · next hne _ =>
      obtain ⟨rfl, rfl⟩ := eq_of_run_pure h
      exact .inr (.inr ⟨by simpa using hne, rfl, rfl⟩)

theorem quietText_never : QuietText never [.group (lookToken ⟨false, true⟩) []] :=
  .group .nil (regular_look _) rfl rfl rfl

theorem exists_phrases_reference (hn : w.numbering.Counts) {ignoreCase : Bool} (hp : p.Tracks seen)
    (h : (backreferenceText w targets).run p = .ok (t, p')) (before : Bool) :
    ∃ ps, SpellsLeaf w seen (.backreference targets ignoreCase) expand before t ps p' := by
  have hle : ∀ i ∈ w.numbering.meant seen.length targets,
      0 < i ∧ i ≤ w.numbering.entries.length := by
    intro i hi
    obtain ⟨e, he, -⟩ := Numbering.mem_meant.mp hi
    exact hn.le he
  have hopened : w.numbering.meant p.opened targets = w.numbering.meant seen.length targets := by
    rw [hp.opened]
  have hcases := backreferenceText_cases hn h
  rw [hopened] at hcases
  rcases hcases with ⟨hmeant, rfl, rfl⟩ | ⟨i, hmeant, rfl, rfl⟩ | ⟨hmeant, rfl, rfl⟩
  · refine ⟨_, quietText_never.text, .quiet quietText_never _ _, quietText_never.noBars,
      fun caseless => ?_, quietText_never.quiet.tally, hp⟩
    rw [leafOutline, hmeant, referenceOutline, quietText_never.text,
      textOutline_quiet quietText_never.quiet]
  · obtain ⟨hpos, hi⟩ := hle i (by simp [hmeant])
    refine ⟨[.leaf (referenceToken i)], by simp [referenceToken], .reference hpos hi before,
      by simp [NoBars, Phrase.isBar, referenceToken], fun caseless => ?_, rfl, hp.after true⟩
    rw [leafOutline, hmeant, outline_noBars (by simp [NoBars, Phrase.isBar, referenceToken])]
    simp [Phrase.outline, referenceOutline, choose]
  · let parts := (w.numbering.meant seen.length targets).map fun i => [Phrase.leaf (referenceToken i)]
    have hparts : ∀ ps ∈ parts, Spells w false ps true := by
      intro ps hps
      obtain ⟨i, hi, rfl⟩ := List.mem_map.mp hps
      exact .reference (hle i hi).1 (hle i hi).2 false
    refine ⟨[.group groupToken (joinBars parts)], ?_, (Spells.joinBars hparts).group regular_group rfl _ _,
      noBars_group _ _, fun caseless => ?_, ?_, hp⟩
    · have htexts : parts.map (fun ps => textOf (phraseTokens ps))
          = (w.numbering.meant seen.length targets).map referenceText := by
        rw [List.map_map]
        refine List.map_congr_left fun i _ => ?_
        simp [referenceToken]
      simp [textOf_joinBars, htexts, grouped, groupToken]
    · have houtlines : parts.map (outline caseless) = (w.numbering.meant seen.length targets).map
          fun i => [.leaf (referenceToken i) caseless] := by
        rw [List.map_map]
        refine List.map_congr_left fun i _ => ?_
        rw [Function.comp_apply, outline_noBars (by simp [NoBars, Phrase.isBar, referenceToken])]
        simp [Phrase.outline]
      rw [outline_grouped, outline_joinBars, houtlines, leafOutline, referenceOutline]
      exact hmeant
    · have htallies : ∀ is : List Nat, (is.map fun i => [Phrase.leaf (referenceToken i)]).foldr
          (fun ps a => tallyAll ps ++ a) {} = {} := by
        intro is
        induction is with
        | nil => rfl
        | cons i is ih => rw [List.map_cons, List.foldr_cons, ih]; rfl
      rw [tallyAll_singleton, Phrase.tally, tallyAll_joinBars, htallies]
      rfl

/-- **The text of a plain leaf is that of phrases that say what the leaf is meant to say.** -/
theorem exists_phrases_leaf (hn : w.numbering.Counts) {n : Node} (hleaf : IsLeaf n)
    (hplain : Plain n) {before : Bool} (hp : p.Tracks seen)
    (h : (leafText w before expand n).run p = .ok (t, p')) :
    ∃ ps, SpellsLeaf w seen n expand before t ps p' := by
  cases n with
  | literal c ignoreCase =>
    obtain ⟨rfl, rfl⟩ := eq_of_run_pure h
    exact exists_phrases_literal w c ignoreCase expand before hp
  | cls c =>
    obtain ⟨hclass, rfl⟩ := eq_of_run_lift h
    rw [Plain] at hplain
    exact exists_phrases_class hplain hclass before hp
  | backreference targets ignoreCase =>
    rw [leafText] at h
    split at h
    · cases h
    · exact exists_phrases_reference hn hp h before
  | _ => exact absurd hleaf (by simp [IsLeaf])

end Diglot.Emitted
