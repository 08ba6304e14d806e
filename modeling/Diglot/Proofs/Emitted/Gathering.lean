import Diglot.Proofs.Emitted.Spelling

/-!
# Gathering from patterns

Things of one kind can be gathered from the phrases of a pattern or from its outline, in the order of
the text. Where groups that only hold things together add nothing, the result is the same
(`Gathering.items_outline`). Quiet texts add nothing.
-/

namespace Diglot.Emitted

/-- A way of gathering something from a pattern, part by part. -/
structure Gathering (α : Type) where
  leaf : Token → List α
  /-- What a group makes of what is inside it. -/
  group : Token → List α → List α
  /-- What a quantifier makes of what it repeats. -/
  repeated : Token → List α → List α
  plain : ∀ {t : Token} (inside : List α), t.kind = .groupOpen → group t inside = inside
  quiet : ∀ {t : Token}, t.kind.isQuiet → leaf t = [] ∧ group t [] = [] ∧ repeated t [] = []

namespace Gathering

variable {α : Type} (g : Gathering α)

mutual

/-- What is gathered from a phrase. -/
def phrase : Phrase → List α
  | .leaf t => g.leaf t
  | .group opener body => g.group opener (phrases body)
  | .repeated body q => g.repeated q (phrase body)

/-- What is gathered from phrases, one after the other. -/
def phrases : List Phrase → List α
  | [] => []
  | p :: ps => phrase p ++ phrases ps

end

mutual

/-- What is gathered from a part of an outline. -/
def item : Item → List α
  | .leaf t _ => g.leaf t
  | .choice alternatives => family alternatives
  | .group opener body => g.group opener (items body)
  | .repeated body q => g.repeated q (items body)

/-- What is gathered from an outline. -/
def items : List Item → List α
  | [] => []
  | i :: is => item i ++ items is

/-- What is gathered from several outlines, one after the other. -/
def family : List (List Item) → List α
  | [] => []
  | is :: iss => items is ++ family iss

end

@[simp] theorem items_append (is js : List Item) : g.items (is ++ js) = g.items is ++ g.items js := by
  induction is with
  | nil => simp [items]
  | cons i is ih => simp [items, ih]

@[simp] theorem items_singleton (i : Item) : g.items [i] = g.item i := by
  simp [items]

@[simp] theorem family_append (fs hs : List (List Item)) :
    g.family (fs ++ hs) = g.family fs ++ g.family hs := by
  induction fs with
  | nil => simp [family]
  | cons f fs ih => simp [family, ih]

theorem family_alternativesOf (is : List Item) : g.family (alternativesOf is) = g.items is := by
  unfold alternativesOf
  split
  · simp [item]
  · simp [family]

/-- Nothing is lost in a choice, and the order stays. -/
theorem items_choose (iss : List (List Item)) : g.items (choose iss) = g.family iss := by
  have hflat : ∀ iss : List (List Item), g.family (iss.flatMap alternativesOf) = g.family iss := by
    intro iss
    induction iss with
    | nil => rfl
    | cons is iss ih =>
      rw [List.flatMap_cons, family_append, family_alternativesOf, ih, family]
  unfold choose
  split
  · rfl
  · simp [family]
  · rw [items_singleton, item, hflat]

mutual

theorem items_outline_phrase (caseless : Bool) : ∀ p : Phrase,
    g.items (p.outline caseless) = g.phrase p
  | .leaf t => by rw [Phrase.outline, items_singleton, item, phrase]
  | .group opener body => by
    rw [Phrase.outline, phrase]
    split
    next hk => rw [items_choose, family_branches, g.plain _ hk]
    next => rw [items_singleton, item, items_choose, family_branches]
  | .repeated body q => by
    rw [Phrase.outline, items_singleton, item, items_outline_phrase, phrase]

theorem family_branches (caseless : Bool) : ∀ ps : List Phrase,
    g.family (branches caseless ps) = g.phrases ps
  | [] => by simp [branches, family, items, phrases]
  | p :: ps => by
    have hrest := family_branches caseless ps
    have hfirst := items_outline_phrase caseless p
    rw [branches, phrases, ← hrest, ← hfirst]
    obtain ⟨is, outlines, hb⟩ := List.exists_cons_of_ne_nil (branches_ne_nil caseless ps)
    rw [hb]
    cases hbar : p.isBar with
    | true =>
      have hnone : g.phrase p = [] := by
        cases p with
        | leaf t =>
          have hk : t.kind = .alternation := by simpa [Phrase.isBar] using hbar
          exact (g.quiet (by rw [hk]; rfl)).1
        | _ => cases hbar
      rw [hfirst, hnone]
      simp [family, items]
    | false => simp [family]

end

/-- **From an outline the same is gathered as from its phrases.** -/
theorem items_outline (caseless : Bool) (ps : List Phrase) :
    g.items (outline caseless ps) = g.phrases ps := by
  rw [outline, items_choose, family_branches]

/-! ## Quiet texts -/

theorem phrases_quiet (ps : List Phrase) (h : ∀ t ∈ phraseTokens ps, t.kind.isQuiet) :
    g.phrases ps = [] := by
  induction ps using phrases_induction with
  | nil => rw [phrases]
  | cons p ps hp hps =>
    have hfirst := hp fun t ht => h t (by simp_all [phraseTokens])
    rw [phrases, phrases, List.append_nil] at hfirst
    rw [phrases, hfirst, hps fun t ht => h t (by simp [phraseTokens, ht]), List.append_nil]
  | leaf t => simp [phrases, phrase, (g.quiet (h t (by simp [Phrase.tokens]))).1]
  | group opener body ih =>
    have hbody := ih fun t ht => h t (by simp [Phrase.tokens, ht])
    simp [phrases, phrase, hbody, (g.quiet (h opener (by simp [Phrase.tokens]))).2.1]
  | repeated body q ih =>
    have hbody := ih fun t ht => h t (by simp_all [Phrase.tokens])
    rw [phrases, phrases, List.append_nil] at hbody
    simp [phrases, phrase, hbody, (g.quiet (h q (by simp [Phrase.tokens]))).2.2]

theorem items_quiet {ps : List Phrase} (h : Quiet ps) (caseless : Bool) :
    g.items (textOutline caseless (textOf (phraseTokens ps))) = [] := by
  rw [textOutline_quiet h, items_outline, g.phrases_quiet ps h.kinds]

/-- From a quiet text nothing is gathered. -/
theorem items_textOutline {t : Text} (h : IsQuiet t) (caseless : Bool) :
    g.items (textOutline caseless t) = [] := by
  obtain ⟨ps, hps⟩ := h
  rw [hps.text, g.items_quiet hps.quiet]

theorem items_literal (w : Writing) (c : Char) (ignoreCase expand caseless : Bool) :
    g.items (textOutline caseless (literalText w c ignoreCase false expand)) = [] := by
  unfold literalText
  split
  · have hquiet : Quiet [.leaf ⟨.atom, escapeChar c⟩] :=
      .leaf (regular_atom (sound_escapeChar c)) rfl rfl
    simpa using g.items_quiet hquiet caseless
  · refine g.items_textOutline ?_ caseless
    dsimp only
    rw [List.cons_append, List.cons_append]
    exact isQuiet_brackets ((passes_escapeInClass _ c).append (passes_flatMap (passes_escapeInClass _)))

end Gathering

end Diglot.Emitted
