import Diglot.Proofs.Emitted.Matching
import Diglot.Proofs.Emitted.Sound

/-!
# Legible phrases

Phrases are legible if they are well formed, every token is spelled in the one way in which its kind
is written, and no digit follows a reference. The text of legible phrases scans to their tokens, as
long as the numbers of the references can be read at all.

* `Legible.scan`: the scan gives the tokens if all references fit into a machine word.
* `Legible.eq_of_scan`: whenever the scan succeeds, it gives the tokens.
* `Legible.exists_target`: a text that a quantifier can follow directly is a single phrase.
-/

namespace Diglot.Emitted

variable {t : Token} {i : Nat} {ps : List Phrase} {us : List Token}

/-! ## Spelling -/

/-- The text that opens a capture. -/
def openerText : Option (List Char) → Text
  | none => ['(']
  | some name => '(' :: '?' :: '<' :: (name ++ ['>'])

/-- The token that refers to a capture. -/
def referenceToken (i : Nat) : Token := ⟨.backreference i, referenceText i⟩

/-- The token that opens a capture. -/
def captureToken (name : Option (List Char)) : Token := ⟨.captureOpen name, openerText name⟩

/-- The token is spelled as the writer spells tokens of its kind. A reference may have a number that
is too large to be read back. -/
structure Token.Regular (t : Token) : Prop where
  sound : t.isReference = false → t.Sound
  reference : ∀ {i}, t.kind = .backreference i → 0 < i ∧ t.text = referenceText i
  capture : ∀ {name}, t.kind = .captureOpen name → t.text = openerText name
  sign : t.kind = .quantifier true → ∃ s, IsSign s ∧ t.text = s ++ ['+']

/-- The number of the token can be read back, if it is a reference. -/
def Token.Fits (t : Token) : Prop :=
  ∀ i, t.kind = .backreference i → i < 2 ^ 64

theorem Token.isReference_iff : t.isReference ↔ ∃ i, t.kind = .backreference i := by
  unfold Token.isReference
  split <;> simp_all

theorem Token.eq_referenceToken (h : t.Regular) (hk : t.kind = .backreference i) :
    t = referenceToken i := by
  rcases t with ⟨kind, text⟩
  cases hk
  rw [referenceToken, ← (h.reference rfl).2]

theorem Token.Regular.sound_of_fits (h : t.Regular) (hf : t.Fits) : t.Sound := by
  cases hr : t.isReference with
  | false => exact h.sound hr
  | true =>
    obtain ⟨i, hk⟩ := Token.isReference_iff.mp hr
    rw [Token.eq_referenceToken h hk]
    exact sound_reference (h.reference hk).1 (hf i hk)

theorem referenceText_eq (i : Nat) : referenceText i = '\\' :: Nat.toDigits 10 i := by
  simp [referenceText, Nat.toString_eq_repr, Nat.repr]

theorem Token.Regular.text_ne_nil (h : t.Regular) : t.text ≠ [] := by
  cases hr : t.isReference with
  | false => exact (h.sound hr).text_ne_nil
  | true =>
    obtain ⟨i, hk⟩ := Token.isReference_iff.mp hr
    rw [(h.reference hk).2, referenceText_eq]
    exact List.cons_ne_nil _ _

theorem Token.Regular.head_ne (h : t.Regular) (hq : t.kind.isQuantifier = false) :
    ∀ c ∈ t.text.head?, c ≠ '+' ∧ c ≠ '?' := by
  cases hr : t.isReference with
  | false => exact (h.sound hr).head_ne hq
  | true =>
    obtain ⟨i, hk⟩ := Token.isReference_iff.mp hr
    rw [(h.reference hk).2, referenceText_eq]
    simp

/-- A token is spelled in one way only, if it is neither a capture, nor a reference, nor a
quantifier. -/
theorem Token.Sound.regular (h : t.Sound) (hq : t.kind.isQuantifier = false)
    (hr : t.isReference = false) (hc : t.captureName? = none) : t.Regular where
  sound _ := h
  reference hi := by simp [Token.isReference, hi] at hr
  capture hi := by simp [Token.captureName?, hi] at hc
  sign hi := by simp [hi, Kind.isQuantifier] at hq

theorem regular_reference (h : 0 < i) : (referenceToken i).Regular where
  sound hr := by simp [referenceToken, Token.isReference] at hr
  reference hi := by cases hi; exact ⟨h, rfl⟩
  capture hi := by cases hi
  sign hi := by cases hi

theorem regular_capture {name : Option (List Char)} (h : (captureToken name).Sound) :
    (captureToken name).Regular where
  sound _ := h
  reference hi := by cases hi
  capture hi := by cases hi; rfl
  sign hi := by cases hi

/-! ## Tokens of the writer -/

/-- The token that opens a group which only holds things together. -/
def groupToken : Token := ⟨.groupOpen, "(?:".toList⟩

/-- The token that opens a group which ignores case. -/
def modifierToken : Token := ⟨.groupOpen, "(?i:".toList⟩

/-- The token that opens an atomic group. -/
def atomicToken : Token := ⟨.atomicOpen, "(?>".toList⟩

/-- The token that opens a look around. -/
def lookToken (l : Look) : Token := ⟨.lookOpen, lookText l⟩

/-- The token of a quantifier. -/
def quantifierToken (q : Quantifier) : Token :=
  ⟨.quantifier (q.kind = .possessive), quantifierText q⟩

theorem regular_group : groupToken.Regular := sound_group.regular rfl rfl rfl

theorem regular_modifier : modifierToken.Regular := sound_modifier.regular rfl rfl rfl

theorem regular_atomic : atomicToken.Regular := sound_atomic.regular rfl rfl rfl

theorem regular_look (l : Look) : (lookToken l).Regular := (sound_look l).regular rfl rfl rfl

theorem regular_bar : barToken.Regular := sound_bar.regular rfl rfl rfl

theorem regular_atom {text : List Char} (h : Token.Sound ⟨.atom, text⟩) :
    Token.Regular ⟨.atom, text⟩ :=
  h.regular rfl rfl rfl

theorem regular_quantifier (q : Quantifier) : (quantifierToken q).Regular where
  sound _ := sound_quantifier q
  reference hi := by cases hi
  capture hi := by cases hi
  sign hi := by
    obtain ⟨s, hs, hq⟩ := exists_isSign q
    have hkind : q.kind = .possessive := by simpa [quantifierToken] using hi
    exact ⟨s, hs, by rw [quantifierToken, hq, hkind]; rfl⟩

/-! ## Neighbours -/

theorem scanAfter_digit {c : Char} (h : c.isDigit) (cs : List Char) :
    scanAfter c cs = .ok (.atom, 0) := by
  unfold scanAfter
  split <;> first | rfl | exact absurd h (by decide)

/-- Only an atom begins with a digit. -/
theorem Token.Regular.startsWithDigit_eq_false (h : t.Regular) (hk : t.kind ≠ .atom) :
    t.startsWithDigit = false := by
  rw [Bool.eq_false_iff]
  intro hd
  cases hr : t.isReference with
  | false =>
    obtain ⟨c, cs, ht, hs⟩ := h.sound hr [] (by simp)
    rw [scanAfter_digit (by simpa [Token.startsWithDigit, ht] using hd)] at hs
    exact hk (congrArg Prod.fst (Except.ok.inj hs)).symm
  | true =>
    obtain ⟨i, hi⟩ := Token.isReference_iff.mp hr
    simp [Token.startsWithDigit, (h.reference hi).2, referenceText_eq] at hd

theorem Token.mayPrecede_of_carries {u : Token} (hu : u.Regular) (hc : t.Carries u) (ha : t.Apart u) :
    t.MayPrecede u := by
  -- a token that can carry no quantifier is not followed by one, nor by its first character
  have hne : t.kind.isTarget = false → t.kind ≠ .close → ∀ c ∈ u.text.head?, c ≠ '+' ∧ c ≠ '?' := by
    intro ht hclose
    refine hu.head_ne ?_
    rw [Bool.eq_false_iff]
    intro hq
    rcases hc hq with h | h
    · simp [ht] at h
    · exact hclose h
  intro c hcu
  unfold Token.admits
  split
  · next n hk =>
    have hdigit := ha (by simp [Token.isReference, hk])
    rw [Token.startsWithDigit, hcu] at hdigit
    simpa [Text.isDigit_ten] using hdigit
  · next p hk =>
    have h := hne (by simp [hk, Kind.isTarget]) (by simp [hk]) c hcu
    simp [h.1, h.2]
  · next hk =>
    have h := hne (by simp [hk, Kind.isTarget]) (by simp [hk]) c hcu
    simp [h.2]
  · rfl

/-! ## Legible phrases -/

/-- Phrases whose text says what they are. -/
structure Legible (ps : List Phrase) : Prop where
  wellFormed : AllWellFormed ps
  regular : ∀ t ∈ phraseTokens ps, t.Regular
  apart : (phraseTokens ps).IsChain Token.Apart

namespace Legible

theorem nil : Legible [] where
  wellFormed := by simp [AllWellFormed]
  regular := by simp [phraseTokens]
  apart := by simp [phraseTokens]

theorem leaf (h : t.Regular) (hk : t.kind.isLeaf) : Legible [.leaf t] where
  wellFormed := by simpa [AllWellFormed, Phrase.WellFormed] using hk
  regular := by simpa [phraseTokens, Phrase.tokens] using h
  apart := by simp [phraseTokens, Phrase.tokens]

theorem append {qs : List Phrase} (hp : Legible ps) (hq : Legible qs)
    (h : ∀ t ∈ (phraseTokens ps).getLast?, ∀ u ∈ (phraseTokens qs).head?, t.Apart u) :
    Legible (ps ++ qs) where
  wellFormed := allWellFormed_append.mpr ⟨hp.wellFormed, hq.wellFormed⟩
  regular := by
    intro t ht
    rw [phraseTokens_append, List.mem_append] at ht
    exact ht.elim (hp.regular t) (hq.regular t)
  apart := by
    rw [phraseTokens_append, List.isChain_append]
    exact ⟨hp.apart, hq.apart, h⟩

theorem group {opener : Token} {body : List Phrase} (ho : opener.Regular)
    (hk : opener.kind.isOpen) (hb : Legible body) : Legible [.group opener body] where
  wellFormed := by
    rw [allWellFormed_singleton, Phrase.WellFormed]
    exact ⟨hk, hb.wellFormed⟩
  regular := by
    intro t ht
    rw [phraseTokens_singleton, Phrase.tokens, List.mem_cons, List.mem_append,
      List.mem_singleton] at ht
    rcases ht with rfl | ht | rfl
    · exact ho
    · exact hb.regular t ht
    · exact sound_close.regular rfl rfl rfl
  apart := by
    rw [phraseTokens_singleton, Phrase.tokens, List.isChain_cons, List.isChain_append]
    refine ⟨?_, hb.apart, by simp, ?_⟩
    · -- an opener is no reference
      intro u _ hr
      cases hopen : opener.kind <;> simp_all [Kind.isOpen, Token.isReference]
    · intro t _ u hu _
      have hclose : closeToken = u := by simpa using hu
      rw [← hclose]
      rfl

theorem repeated {p : Phrase} {q : Token} (hp : Legible [p]) (ht : p.isTarget)
    (hq : q.Regular) (hk : q.kind.isQuantifier) : Legible [.repeated p q] where
  wellFormed := by
    have hw := hp.wellFormed
    rw [allWellFormed_singleton] at hw ⊢
    rw [Phrase.WellFormed]
    exact ⟨hw, ht, hk⟩
  regular := by
    intro t h
    rw [phraseTokens_singleton, Phrase.tokens, List.mem_append, List.mem_singleton] at h
    rcases h with h | rfl
    · exact hp.regular t (by simpa using h)
    · exact hq
  apart := by
    rw [phraseTokens_singleton, Phrase.tokens, List.isChain_append]
    refine ⟨by simpa using hp.apart, by simp, ?_⟩
    intro t _ u hu _
    have hqu : q = u := by simpa using hu
    rw [← hqu]
    refine hq.startsWithDigit_eq_false ?_
    rintro hatom
    simp [hatom, Kind.isQuantifier] at hk

/-! ### Reading legible phrases -/

theorem isChain_mayPrecede (h : Legible ps) : (phraseTokens ps).IsChain Token.MayPrecede := by
  have ha := h.apart
  have hcarries := (isChain_carries_phraseTokens ps h.wellFormed).2
  rw [List.isChain_iff_forall_rel_of_append_cons_cons] at ha hcarries ⊢
  intro t u before after heq
  exact Token.mayPrecede_of_carries (h.regular u (by simp [heq])) (hcarries heq) (ha heq)

/-- **The text of legible phrases scans to their tokens**, if the numbers in it can be read. -/
theorem scan (h : Legible ps) (hf : ∀ t ∈ phraseTokens ps, t.Fits) :
    scan (textOf (phraseTokens ps)) = .ok (phraseTokens ps) :=
  scan_of_reads <| reads_of_isChain (fun t ht => (h.regular t ht).sound_of_fits (hf t ht))
    h.isChain_mayPrecede

end Legible

/-- A number that cannot be read stops the scan. -/
theorem fits_of_scanFrom {ts : List Token} (hr : ∀ t ∈ ts, t.Regular)
    (hc : ts.IsChain Token.MayPrecede) {position : Nat} (h : scanFrom position (textOf ts) = .ok us) :
    ∀ t ∈ ts, t.Fits := by
  induction ts generalizing position us with
  | nil => simp
  | cons t ts ih =>
    rw [List.isChain_cons] at hc
    have hrt := hr t List.mem_cons_self
    have hrs : ∀ u ∈ ts, u.Regular := fun u hu => hr u (List.mem_cons_of_mem _ hu)
    have hadmits : ∀ c ∈ (textOf ts).head?, t.admits c := by
      cases ts with
      | nil => simp
      | cons u us =>
        rw [head?_textOf (hrs u List.mem_cons_self).text_ne_nil]
        exact hc.1 u (by simp)
    have hfits : t.Fits := by
      intro i hk
      by_contra hi
      have hdigits : ∀ c ∈ (textOf ts).head?, c.isDigit = false := by
        intro c hcs
        simpa [Token.admits, hk, Text.isDigit_ten] using hadmits c hcs
      rw [textOf_cons, (hrt.reference hk).2, referenceText_eq, List.cons_append, scanFrom] at h
      simp only [scanAfter, escape_toDigits (hrt.reference hk).1 hdigits, if_neg hi] at h
      cases h
    rw [textOf_cons, scanFrom_readsBefore (hrt.sound_of_fits hfits _ hadmits)] at h
    intro u hu
    rcases List.mem_cons.mp hu with rfl | hu
    · exact hfits
    · cases hs : scanFrom (position + t.text.length) (textOf ts) with
      | error e => rw [hs] at h; cases h
      | ok vs => exact ih hrs hc.2 hs u hu

namespace Legible

theorem fits_of_scan (h : Legible ps) (hs : Emitted.scan (textOf (phraseTokens ps)) = .ok us) :
    ∀ t ∈ phraseTokens ps, t.Fits :=
  fits_of_scanFrom h.regular h.isChain_mayPrecede hs

/-- **Whenever the text of legible phrases can be scanned, the scan gives their tokens.** -/
theorem eq_of_scan (h : Legible ps) (hs : Emitted.scan (textOf (phraseTokens ps)) = .ok us) :
    us = phraseTokens ps := by
  rw [h.scan (h.fits_of_scan hs)] at hs
  exact (Except.ok.inj hs).symm

/-- **Legible phrases that a quantifier can follow directly are a single phrase.** -/
theorem exists_target (h : Legible ps) (ha : isSingleAtom (textOf (phraseTokens ps)) = true) :
    ∃ p, ps = [p] ∧ p.isTarget := by
  unfold isSingleAtom at ha
  split at ha
  · next us hs =>
    rw [h.eq_of_scan hs] at ha
    exact exists_target_of_isAtomic h.wellFormed ha
  · cases ha

end Legible

end Diglot.Emitted
