import Diglot.Proofs.Emitted.Legible
import Diglot.Proofs.Emitted.Outline
import Diglot.Proofs.Emitted.Tally
import Diglot.Proofs.Outcome

/-!
# Phrases of classes

The text of a class is that of legible phrases in which nothing is captured, referred to, repeated
or recursed into (`exists_phrases_classText`, `exists_phrases_classLeaf`). The names of properties
must not break out of their braces or of the brackets around them.
-/

namespace Diglot.Emitted

open Diglot.Core Unicode

variable {s : ClassStyle} {t a b : Text} {items : List ClassItem} {texts : List Text}
  {ps qs : List Phrase} {c : CharClass}

/-! ## Plain classes -/

/-- A property name that ends neither its own braces nor the brackets around them. -/
def PlainName (name : String) : Prop :=
  ∀ c ∈ name.toList, c ≠ '[' ∧ c ≠ ']' ∧ c ≠ '\x7d'

mutual

/-- All property names in the class are plain. -/
def PlainClass : CharClass → Prop
  | .mk _ items _ => PlainItems items

/-- All property names in the item are plain. -/
def PlainItem : ClassItem → Prop
  | .property name _ => PlainName name
  | .nested cls => PlainClass cls
  | .intersection operands => PlainClasses operands
  | _ => True

/-- All property names in the items are plain. -/
def PlainItems : List ClassItem → Prop
  | [] => True
  | i :: is => PlainItem i ∧ PlainItems is

/-- All property names in the classes are plain. -/
def PlainClasses : List CharClass → Prop
  | [] => True
  | c :: cs => PlainClass c ∧ PlainClasses cs

end

/-! ## Brackets -/

theorem passes_escapePlain {c : Char} (h : c ∉ ['[', ']', '\\']) : Passes (escapePlain c) := by
  have hhex : ∀ width n, Passes (hexDigits width n) := fun width n =>
    passes_plain fun d hd => by
      have := hexDigits_plain hd
      simp_all
  unfold escapePlain
  split_ifs
  · exact passes_escape 'n'
  · exact passes_escape 'r'
  · exact passes_escape 't'
  · exact passes_escape 'v'
  · exact passes_escape 'f'
  · exact (passes_escape 'x').append (hhex 2 c.toNat)
  · exact ((passes_escape 'u').append (passes_char (c := '\x7b') (by decide))).append (hhex 1 c.toNat)
      |>.append (passes_char (by decide))
  · exact passes_char h

theorem passes_escapeInClass (v : Bool) (c : Char) : Passes (escapeInClass v c) := by
  unfold escapeInClass
  split
  · exact passes_escape c
  · next h =>
    refine passes_escapePlain ?_
    simp only [classSpecials, Bool.or_eq_true, List.contains_eq_mem, decide_eq_true_eq, not_or] at h
    have := h.1
    simp_all

theorem passes_property {name : String} (h : PlainName name) (negated : Bool) :
    Passes (propertyText name negated) := by
  have hbody : Passes (name.toList ++ ['\x7d']) :=
    passes_braced _ fun c hc => ⟨(h c hc).1, (h c hc).2.1⟩
  have hopen : Passes ['\x7b'] := passes_char (by decide)
  cases negated
  · exact ((passes_escape 'p').append hopen).append hbody
  · exact ((passes_escape 'P').append hopen).append hbody

theorem passes_builtin (kind : Builtin) (negated : Bool) : Passes (builtinText kind negated) := by
  cases kind <;> exact passes_escape _

theorem passes_rangeText (s : ClassStyle) (r : Char × Char) : Passes (s.rangeText r) := by
  rcases r with ⟨a, b⟩
  rw [ClassStyle.rangeText]
  split_ifs
  · exact passes_escapeInClass s.v _
  · exact (passes_escapeInClass s.v _).append
      ((passes_char (by decide : '-' ∉ ['[', ']', '\\'])).append (passes_escapeInClass s.v _))

/-- Everything that is written inside brackets stays inside. -/
theorem passes_bracketItem {i : ClassItem} (hi : PlainItem i) (h : s.bracketItem i = .ok t) :
    Passes t := by
  cases i with
  | char c =>
    cases h
    refine (passes_escapeInClass s.v c).append ?_
    split
    · exact passes_flatMap (passes_escapeInClass s.v)
    · exact passes_nil
  | range a b =>
    have hrange := (passes_escapeInClass s.v a).append
      ((passes_char (by decide : '-' ∉ ['[', ']', '\\'])).append (passes_escapeInClass s.v b))
    rw [ClassStyle.bracketItem] at h
    split at h
    · obtain ⟨variants, _, h⟩ := exists_of_bind_eq_ok h
      cases h
      exact hrange.append (passes_flatMap (passes_rangeText s))
    · cases h
      exact hrange.append passes_nil
  | property name negated =>
    cases h
    rw [PlainItem] at hi
    exact passes_property hi negated
  | builtin kind negated =>
    cases h
    exact passes_builtin kind negated
  | nested _ | intersection _ =>
    cases h
    exact passes_nil

theorem passes_bracketItems (hi : PlainItems items) (h : items.mapM s.bracketItem = .ok texts) :
    ∀ t ∈ texts, Passes t := by
  induction items generalizing texts with
  | nil =>
    cases h
    simp
  | cons i is ih =>
    rw [PlainItems] at hi
    rw [List.mapM_cons] at h
    obtain ⟨first, hfirst, h⟩ := exists_of_bind_eq_ok h
    obtain ⟨rest, hrest, h⟩ := exists_of_bind_eq_ok h
    cases h
    intro t ht
    rcases List.mem_cons.mp ht with rfl | ht
    · exact passes_bracketItem hi.1 hfirst
    · exact ih hi.2 hrest t ht

theorem passes_bracketText (hi : PlainItems items) (h : s.bracketText items = .ok t) :
    Passes t := by
  obtain ⟨texts, hm, h⟩ := exists_of_bind_eq_ok h
  cases h
  exact passes_flatten (passes_bracketItems hi hm)

/-! ## Quiet phrases -/

/-- Whether tokens of the kind neither capture, refer, repeat nor recurse. -/
def Kind.isQuiet : Kind → Bool
  | groupOpen | lookOpen | close | alternation | assertion | atom => true
  | _ => false

/-- Phrases in which nothing is captured, referred to, repeated or recursed into. -/
structure Quiet (ps : List Phrase) : Prop where
  legible : Legible ps
  kinds : ∀ t ∈ phraseTokens ps, t.kind.isQuiet

theorem Quiet.noReference (h : Quiet ps) : ∀ t ∈ phraseTokens ps, t.isReference = false := by
  intro t ht
  have hk := h.kinds t ht
  cases hkind : t.kind <;> simp_all [Kind.isQuiet, Token.isReference]

theorem Quiet.nil : Quiet [] := ⟨.nil, by simp [phraseTokens]⟩

theorem Quiet.leaf {t : Token} (h : t.Regular) (hk : t.kind.isQuiet) (hl : t.kind.isLeaf) :
    Quiet [.leaf t] :=
  ⟨.leaf h hl, by simpa [phraseTokens, Phrase.tokens] using hk⟩

theorem Quiet.append (hp : Quiet ps) (hq : Quiet qs) : Quiet (ps ++ qs) where
  legible := by
    refine hp.legible.append hq.legible ?_
    intro t ht u _ hr
    rw [hp.noReference t (List.mem_of_getLast? ht)] at hr
    cases hr
  kinds := by
    intro t ht
    rw [phraseTokens_append, List.mem_append] at ht
    exact ht.elim (hp.kinds t) (hq.kinds t)

theorem Quiet.group {opener : Token} {body : List Phrase} (ho : opener.Regular)
    (hk : opener.kind.isQuiet) (hopen : opener.kind.isOpen) (hb : Quiet body) :
    Quiet [.group opener body] where
  legible := .group ho hopen hb.legible
  kinds := by
    intro t ht
    rw [phraseTokens_singleton, Phrase.tokens, List.mem_cons, List.mem_append,
      List.mem_singleton] at ht
    rcases ht with rfl | ht | rfl
    · exact hk
    · exact hb.kinds t ht
    · rfl

/-- There is nothing to count in quiet phrases. -/
theorem Quiet.tally (h : Quiet ps) : tallyAll ps = {} := by
  have hcounts := counts_tallyAll ps h.legible.wellFormed
  ext1
  · rw [hcounts.titles, List.filterMap_eq_nil_iff]
    intro t ht
    have hk := h.kinds t ht
    cases hkind : t.kind <;> simp_all [Kind.isQuiet, Token.captureName?]
  · rw [← List.map_eq_nil_iff, hcounts.markers, List.map_eq_nil_iff, List.filter_eq_nil_iff]
    intro t ht
    have hk := h.kinds t ht
    cases hkind : t.kind <;> simp_all [Kind.isQuiet, Kind.isMarker]
  · rw [hcounts.atomics, List.countP_eq_zero]
    intro t ht
    have hk := h.kinds t ht
    cases hkind : t.kind <;> simp_all [Kind.isQuiet]
  · rw [hcounts.possessives, List.countP_eq_zero]
    intro t ht
    have hk := h.kinds t ht
    cases hkind : t.kind <;> simp_all [Kind.isQuiet]

/-! ## Texts of quiet phrases -/

@[simp] theorem textOf_leaf (t : Token) : textOf (Phrase.leaf t).tokens = t.text := by
  simp [Phrase.tokens]

@[simp] theorem textOf_group (opener : Token) (body : List Phrase) :
    textOf (Phrase.group opener body).tokens
      = opener.text ++ (textOf (phraseTokens body) ++ [')']) := by
  simp [Phrase.tokens, closeToken]

/-- The text of quiet phrases that stand in a sequence, and before which a reference may end. -/
structure QuietText (t : Text) (ps : List Phrase) : Prop where
  text : t = textOf (phraseTokens ps)
  quiet : Quiet ps
  noBars : NoBars ps
  nonempty : ps ≠ []
  noDigit : ∀ u ∈ (phraseTokens ps).head?, u.startsWithDigit = false

/-- The text of quiet phrases that stand in a sequence. -/
def IsQuiet (t : Text) : Prop :=
  ∃ ps, QuietText t ps

theorem QuietText.atom (h : Token.Sound ⟨.atom, t⟩) (hd : t.head?.any Char.isDigit = false) :
    QuietText t [.leaf ⟨.atom, t⟩] where
  text := by simp
  quiet := .leaf (regular_atom h) rfl rfl
  noBars := by simp [NoBars, Phrase.isBar]
  nonempty := by simp
  noDigit := by simpa [Phrase.tokens, Token.startsWithDigit] using hd

theorem QuietText.group {t : Text} {body : List Phrase} (hb : Quiet body) {opener : Token}
    (ho : opener.Regular) (hk : opener.kind.isQuiet) (hopen : opener.kind.isOpen)
    (ht : t = opener.text ++ (textOf (phraseTokens body) ++ [')'])) :
    QuietText t [.group opener body] where
  text := by simpa using ht
  quiet := .group ho hk hopen hb
  noBars := by simp [NoBars, Phrase.isBar]
  nonempty := by simp
  noDigit := by
    have hne : opener.kind ≠ .atom := by
      intro h
      simp [h, Kind.isOpen] at hopen
    simpa [Phrase.tokens] using ho.startsWithDigit_eq_false hne

theorem QuietText.append (ha : QuietText a ps) (hb : QuietText b qs) :
    QuietText (a ++ b) (ps ++ qs) where
  text := by simp [ha.text, hb.text]
  quiet := ha.quiet.append hb.quiet
  noBars := ha.noBars.append hb.noBars
  nonempty := by simp [ha.nonempty]
  noDigit := by
    intro u hu
    rw [phraseTokens_append, List.head?_append] at hu
    cases hp : (phraseTokens ps).head? with
    | none => exact hb.noDigit u (by simpa [hp] using hu)
    | some v => exact ha.noDigit u (by simpa [hp] using hu)

theorem quiet_joinBars : ∀ {parts : List (List Phrase)}, (∀ ps ∈ parts, Quiet ps) →
    Quiet (joinBars parts)
  | [], _ => .nil
  | [ps], h => h ps (by simp)
  | ps :: qs :: rest, h => by
    have hbar : Quiet [.leaf barToken] := .leaf regular_bar rfl rfl
    have hrest : Quiet (joinBars (qs :: rest)) := quiet_joinBars fun x hx => h x (by simp [hx])
    exact (h ps (by simp)).append (hbar.append hrest)

/-- Alternatives of which each is the text of quiet phrases. -/
theorem exists_quiet_parts (h : ∀ t ∈ texts, IsQuiet t) :
    ∃ parts : List (List Phrase), texts = parts.map (fun ps => textOf (phraseTokens ps)) ∧
      ∀ ps ∈ parts, Quiet ps := by
  induction texts with
  | nil => exact ⟨[], by simp⟩
  | cons t ts ih =>
    obtain ⟨ps, hps⟩ := h t (by simp)
    obtain ⟨parts, hparts, hquiet⟩ := ih fun u hu => h u (by simp [hu])
    refine ⟨ps :: parts, by simp [hps.text, hparts], ?_⟩
    intro qs hqs
    rcases List.mem_cons.mp hqs with rfl | hqs
    · exact hps.quiet
    · exact hquiet qs hqs

theorem isQuiet_unionText (h : ∀ t ∈ texts, IsQuiet t) : IsQuiet (unionText texts) := by
  obtain ⟨parts, hparts, hquiet⟩ := exists_quiet_parts h
  unfold unionText
  split
  · exact h _ (by simp)
  · refine ⟨_, .group (quiet_joinBars hquiet) regular_group rfl rfl ?_⟩
    rw [textOf_joinBars, ← hparts, List.append_assoc]
    rfl

theorem isQuiet_brackets {body : Text} (h : Passes body) : IsQuiet ('[' :: (body ++ [']'])) :=
  ⟨_, .atom (sound_class h) rfl⟩

theorem isQuiet_any : IsQuiet anyText :=
  isQuiet_brackets ((passes_escape 's').append (passes_escape 'S'))

theorem IsQuiet.append : IsQuiet a → IsQuiet b → IsQuiet (a ++ b)
  | ⟨ps, hp⟩, ⟨qs, hq⟩ => ⟨ps ++ qs, hp.append hq⟩

theorem IsQuiet.look (h : IsQuiet t) (l : Look) : IsQuiet (lookText l ++ (t ++ [')'])) := by
  obtain ⟨ps, hps⟩ := h
  exact ⟨_, .group hps.quiet (regular_look l) rfl rfl (by rw [hps.text]; rfl)⟩

/-! ## Classes -/

/-- How a class is written: as the only class in it, in flat brackets, or as alternatives. -/
theorem classText_cases {negated : Bool} {i : Bool} (h : classText s (.mk negated items i) = .ok t)
    :
    classParts s items = .ok [t] ∨
    (∃ flat, s.bracketText items = .ok flat ∧
      t = '[' :: (((if negated then ['^'] else []) ++ flat) ++ [']'])) ∨
    ∃ flat others parts, s.bracketText items = .ok flat ∧ classParts s items = .ok others ∧
      parts = (if items.any isFlat then ('[' :: flat ++ [']']) :: others else others) ∧
      t = if negated then "(?!".toList ++ unionText parts ++ ')' :: anyText else unionText parts := by
  rw [classText.eq_def] at h
  split at h
  · next inner _ heq =>
    cases heq
    left
    rw [classParts, h]
    rfl
  · next heq =>
    cases heq
    right
    obtain ⟨flat, hflat, h⟩ := exists_of_bind_eq_ok h
    split at h
    · cases h
      exact .inl ⟨flat, hflat, by simp⟩
    · obtain ⟨others, hothers, h⟩ := exists_of_bind_eq_ok h
      cases h
      exact .inr ⟨flat, others, _, hflat, hothers, rfl, rfl⟩

mutual

/-- **The text of a class is that of quiet phrases.** -/
theorem isQuiet_classText (s : ClassStyle) : ∀ (c : CharClass), PlainClass c →
    ∀ {t : Text}, classText s c = .ok t → IsQuiet t
  | .mk negated items i, hp, t, h => by
    rw [PlainClass] at hp
    rcases classText_cases h with hc | ⟨flat, hflat, rfl⟩ | ⟨flat, others, parts, hflat, hc, rfl, rfl⟩
    · exact isQuiet_classParts s items hp hc t (by simp)
    · refine isQuiet_brackets (Passes.append ?_ (passes_bracketText hp hflat))
      split
      · exact passes_char (by decide)
      · exact passes_nil
    · have hothers := isQuiet_classParts s items hp hc
      have hparts : IsQuiet (unionText
          (if items.any isFlat then ('[' :: flat ++ [']']) :: others else others)) := by
        refine isQuiet_unionText fun u hu => ?_
        split at hu
        · rcases List.mem_cons.mp hu with rfl | hu
          · exact isQuiet_brackets (passes_bracketText hp hflat)
          · exact hothers u hu
        · exact hothers u hu
      split
      · have hlook := (hparts.look ⟨false, true⟩).append isQuiet_any
        simpa [lookText] using hlook
      · exact hparts

theorem isQuiet_classParts (s : ClassStyle) : ∀ (items : List ClassItem), PlainItems items →
    ∀ {texts : List Text}, classParts s items = .ok texts → ∀ t ∈ texts, IsQuiet t
  | [], _, texts, h => by
    rw [classParts] at h
    cases h
    simp
  | .nested inner :: items, hp, texts, h => by
    rw [PlainItems, PlainItem] at hp
    rw [classParts] at h
    obtain ⟨first, hfirst, h⟩ := exists_of_bind_eq_ok h
    obtain ⟨rest, hrest, h⟩ := exists_of_bind_eq_ok h
    cases h
    intro t ht
    rcases List.mem_cons.mp ht with rfl | ht
    · exact isQuiet_classText s inner hp.1 hfirst
    · exact isQuiet_classParts s items hp.2 hrest t ht
  | .intersection [] :: items, hp, texts, h => by
    rw [PlainItems] at hp
    rw [classParts] at h
    exact isQuiet_classParts s items hp.2 h
  | .intersection (c :: cs) :: items, hp, texts, h => by
    rw [PlainItems, PlainItem] at hp
    rw [classParts] at h
    obtain ⟨first, hfirst, h⟩ := exists_of_bind_eq_ok h
    obtain ⟨rest, hrest, h⟩ := exists_of_bind_eq_ok h
    cases h
    intro t ht
    rcases List.mem_cons.mp ht with rfl | ht
    · exact isQuiet_operandsText s (c :: cs) (by simp) hp.1 hfirst
    · exact isQuiet_classParts s items hp.2 hrest t ht
  | .char _ :: items, hp, texts, h | .range _ _ :: items, hp, texts, h
  | .property _ _ :: items, hp, texts, h | .builtin _ _ :: items, hp, texts, h => by
    rw [PlainItems] at hp
    rw [classParts] at h
    · exact isQuiet_classParts s items hp.2 h
    all_goals simp

theorem isQuiet_operandsText (s : ClassStyle) : ∀ (cs : List CharClass), cs ≠ [] →
    PlainClasses cs → ∀ {t : Text}, operandsText s cs = .ok t → IsQuiet t
  | [], hne, _, _, _ => absurd rfl hne
  | [c], _, hp, t, h => by
    rw [PlainClasses] at hp
    rw [operandsText] at h
    exact isQuiet_classText s c hp.1 h
  | c :: d :: cs, _, hp, t, h => by
    rw [PlainClasses] at hp
    rw [operandsText] at h
    obtain ⟨first, hfirst, h⟩ := exists_of_bind_eq_ok h
    obtain ⟨rest, hrest, h⟩ := exists_of_bind_eq_ok h
    cases h
    have hlook := (isQuiet_classText s c hp.1 hfirst).look ⟨false, false⟩
    have hrest := isQuiet_operandsText s (d :: cs) (by simp) hp.2 hrest
    simpa [lookText] using hlook.append hrest

end

theorem plainItems_items (h : PlainClass c) : PlainItems c.items := by
  rcases c with ⟨_, items, _⟩
  rw [PlainClass] at h
  exact h

/-- How a leaf is written: as a property, as a shorthand, or as any other class. -/
theorem classLeaf_cases (h : classLeaf s c = .ok t) :
    (∃ name negated, c.items = [.property name negated] ∧
      t = propertyText name (negated != c.negated)) ∨
    (∃ kind negated, t = builtinText kind (negated != c.negated)) ∨ classText s c = .ok t := by
  rw [classLeaf] at h
  split at h
  on_goal 1 => split at h
  on_goal 1 => obtain ⟨_, _, h⟩ := exists_of_bind_eq_ok h
  -- The check on cased properties changes nothing of what follows it.
  all_goals
    split at h
    · next name negated heq =>
      cases h
      exact .inl ⟨name, negated, heq, rfl⟩
    · next kind negated _ =>
      cases h
      exact .inr (.inl ⟨kind, negated, rfl⟩)
    · exact .inr (.inr h)

/-- **The text of a class as a leaf is that of quiet phrases.** -/
theorem isQuiet_classLeaf (hp : PlainClass c) (h : classLeaf s c = .ok t) : IsQuiet t := by
  rcases classLeaf_cases h with ⟨name, negated, hitems, rfl⟩ | ⟨kind, negated, rfl⟩ | h
  · have hplain := plainItems_items hp
    rw [hitems, PlainItems, PlainItem] at hplain
    exact ⟨_, .atom (sound_property (fun hc => (hplain.1 _ hc).2.2 rfl) _) rfl⟩
  · exact ⟨_, .atom (sound_builtin kind _) (by cases kind <;> rfl)⟩
  · exact isQuiet_classText s c hp h

end Diglot.Emitted
