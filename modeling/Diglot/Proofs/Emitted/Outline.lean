import Diglot.Proofs.Emitted.Phrase

/-!
# Outlines

The outline of phrases is what is left of them when groups that only hold things together are
erased: a sequence of items, in which nested sequences and nested choices are flattened and empty
parts are gone. A leaf keeps whether it lies in a modifier group.
-/

namespace Diglot.Emitted

/-- A part of an outline. -/
inductive Item where
  /-- A token by itself; `caseless` says whether it lies in a modifier group. -/
  | leaf (t : Token) (caseless : Bool)
  /-- At least two alternatives, none of which is a choice by itself. -/
  | choice (alternatives : List (List Item))
  /-- A capture, an atomic group or a look around. -/
  | group (opener : Token) (body : List Item)
  /-- Something with its quantifier. -/
  | repeated (body : List Item) (q : Token)

/-! ## Choices -/

/-- What there is to choose from. -/
def alternativesOf : List Item → List (List Item)
  | [.choice alternatives] => alternatives
  | items => [items]

/-- The choice between several outlines. A single one stands for itself, and the alternatives of a
choice become alternatives of the choice around it. -/
def choose : List (List Item) → List Item
  | [] => []
  | [items] => items
  | outlines => [.choice (outlines.flatMap alternativesOf)]

theorem alternativesOf_choose {outlines : List (List Item)} (h : outlines ≠ []) :
    alternativesOf (choose outlines) = outlines.flatMap alternativesOf := by
  match outlines, h with
  | [items], _ => simp [choose]
  | _ :: _ :: _, _ => rfl

theorem alternativesOf_families {families : List (List (List Item))} (h : ∀ f ∈ families, f ≠ []) :
    (families.map choose).flatMap alternativesOf = families.flatten.flatMap alternativesOf := by
  induction families with
  | nil => rfl
  | cons f families ih =>
    rw [List.map_cons, List.flatMap_cons, alternativesOf_choose (h f (by simp)),
      ih (fun g hg => h g (by simp [hg])), List.flatten_cons, List.flatMap_append]

/-- **Choosing among choices is choosing among all their alternatives.** -/
theorem choose_map_choose {families : List (List (List Item))} (h : ∀ f ∈ families, f ≠ []) :
    choose (families.map choose) = choose families.flatten := by
  match families, h with
  | [], _ => rfl
  | [f], _ => simp [choose]
  | f :: g :: rest, h =>
    obtain ⟨a, as, rfl⟩ := List.exists_cons_of_ne_nil (h f (by simp))
    obtain ⟨b, bs, rfl⟩ := List.exists_cons_of_ne_nil (h g (by simp))
    -- both sides have at least two outlines, so both are one item
    have hright : choose ((a :: as) :: (b :: bs) :: rest).flatten
        = [.choice (((a :: as) :: (b :: bs) :: rest).flatten.flatMap alternativesOf)] := by
      cases as <;> rfl
    rw [hright, ← alternativesOf_families h]
    rfl

/-! ## Outlines of phrases -/

/-- Whether the phrase is the bar between alternatives. -/
def Phrase.isBar : Phrase → Bool
  | leaf t => t.kind == .alternation
  | _ => false

/-- The text of the opener of a group that ignores case. -/
def modifierText : List Char := "(?i:".toList

mutual

/-- What a phrase says. In a modifier group, `caseless` holds. -/
def Phrase.outline (caseless : Bool) : Phrase → List Item
  | .leaf t => [.leaf t caseless]
  | .group opener body =>
    if opener.kind = .groupOpen then choose (branches (caseless || opener.text = modifierText) body)
    else [.group opener (choose (branches caseless body))]
  | .repeated body q => [.repeated (body.outline caseless) q]

/-- What phrases say between their bars. -/
def branches (caseless : Bool) : List Phrase → List (List Item)
  | [] => [[]]
  | p :: ps =>
    match p.isBar, branches caseless ps with
    | true, outlines => [] :: outlines
    | false, [] => [p.outline caseless]
    | false, items :: outlines => (p.outline caseless ++ items) :: outlines

end

/-- What phrases say. -/
def outline (caseless : Bool) (ps : List Phrase) : List Item :=
  choose (branches caseless ps)

theorem branches_ne_nil (caseless : Bool) (ps : List Phrase) : branches caseless ps ≠ [] := by
  cases ps with
  | nil => simp [branches]
  | cons p ps =>
    rw [branches]
    split <;> simp

/-- Phrases without a bar between them. -/
def NoBars (ps : List Phrase) : Prop :=
  ∀ p ∈ ps, p.isBar = false

theorem NoBars.append {ps qs : List Phrase} (hp : NoBars ps) (hq : NoBars qs) : NoBars (ps ++ qs) := by
  intro p h
  rcases List.mem_append.mp h with h | h
  · exact hp p h
  · exact hq p h

theorem branches_noBars {ps : List Phrase} (h : NoBars ps) (caseless : Bool) :
    branches caseless ps = [ps.flatMap (·.outline caseless)] := by
  induction ps with
  | nil => simp [branches]
  | cons p ps ih =>
    have hp : p.isBar = false := h p (by simp)
    rw [branches, hp, ih (fun q hq => h q (by simp [hq]))]
    rfl

/-- Without bars, the outline of a sequence is made of the outlines of its parts. -/
theorem outline_noBars {ps : List Phrase} (h : NoBars ps) (caseless : Bool) :
    outline caseless ps = ps.flatMap (·.outline caseless) := by
  rw [outline, branches_noBars h]
  rfl

theorem branches_bar (caseless : Bool) (ps qs : List Phrase) :
    branches caseless (ps ++ .leaf barToken :: qs) = branches caseless ps ++ branches caseless qs := by
  induction ps with
  | nil => simp [branches, Phrase.isBar, barToken]
  | cons p ps ih =>
    rw [List.cons_append, branches, ih, branches]
    obtain ⟨items, outlines, hb⟩ := List.exists_cons_of_ne_nil (branches_ne_nil caseless ps)
    rw [hb]
    cases p.isBar <;> rfl

/-- Phrases with bars between them. -/
def joinBars : List (List Phrase) → List Phrase
  | [] => []
  | [ps] => ps
  | ps :: rest => ps ++ .leaf barToken :: joinBars rest

theorem branches_joinBars (caseless : Bool) : ∀ {parts : List (List Phrase)}, parts ≠ [] →
    branches caseless (joinBars parts) = (parts.map (branches caseless)).flatten
  | [ps], _ => by simp [joinBars]
  | ps :: qs :: rest, _ => by
    rw [joinBars, branches_bar, branches_joinBars caseless (List.cons_ne_nil qs rest)]
    · rfl
    · simp

/-- **The outline of alternatives is the choice between their outlines.** -/
theorem outline_joinBars (caseless : Bool) (parts : List (List Phrase)) :
    outline caseless (joinBars parts) = choose (parts.map (outline caseless)) := by
  have houtlines : parts.map (outline caseless) = (parts.map (branches caseless)).map choose := by
    rw [List.map_map]
    rfl
  rw [houtlines, choose_map_choose, outline]
  · cases parts with
    | nil => rfl
    | cons ps rest => rw [branches_joinBars caseless (List.cons_ne_nil ps rest)]
  · intro f hf
    obtain ⟨ps, _, rfl⟩ := List.mem_map.mp hf
    exact branches_ne_nil caseless ps

/-- Joining groups by bars joins their tokens by bar tokens. -/
theorem textOf_joinBars : ∀ parts : List (List Phrase),
    textOf (phraseTokens (joinBars parts))
      = ['|'].intercalate (parts.map fun ps => textOf (phraseTokens ps))
  | [] => by simp [joinBars, phraseTokens, List.intercalate]
  | [ps] => by simp [joinBars, List.intercalate]
  | ps :: qs :: rest => by
    rw [joinBars, phraseTokens_append, textOf_append, phraseTokens, Phrase.tokens]
    · rw [List.singleton_append, textOf_cons, textOf_joinBars (qs :: rest)]
      simp [List.intercalate, barToken]
    · simp

end Diglot.Emitted
