import Diglot.Proofs.Emitted.Boundary
import Diglot.Proofs.Text.Decimal

/-!
# Phrases

The tokens of a written pattern put together: groups hold what stands between their parentheses,
and a quantifier takes the single phrase before it. A bar is a phrase of its own, so a body falls
into its alternatives at its bars; that makes alternation the loosest of the three.

* `parse` reads a list of tokens with a stack of open groups.
* `parse_phraseTokens`: the tokens of well-formed phrases parse to these phrases.
* `isChain_carries_phraseTokens`: in well-formed phrases a quantifier follows a character, a
  reference, a marker or the end of a group.
-/

namespace Diglot.Emitted

/-! ## Phrases and their tokens -/

namespace Kind

/-- Whether the token is a quantifier. -/
def isQuantifier : Kind → Bool
  | quantifier _ => true
  | _ => false

/-- Whether the token is a phrase by itself: it neither opens, closes nor repeats anything. -/
def isLeaf : Kind → Bool
  | close | quantifier _ => false
  | k => !k.isOpen

/-- Whether a quantifier can repeat the token: it is a character, a reference or a marker. -/
def isTarget : Kind → Bool
  | atom | backreference _ | recursion _ | groupRecursion _ _ => true
  | _ => false

theorem exists_of_isQuantifier {k : Kind} (h : k.isQuantifier) : ∃ p, k = quantifier p := by
  cases k <;> simp_all [isQuantifier]

end Kind

/-- The token that closes a group. -/
def closeToken : Token := ⟨.close, [')']⟩

/-- The token between alternatives. -/
def barToken : Token := ⟨.alternation, ['|']⟩

/-- A part of a written pattern. -/
inductive Phrase where
  /-- A token that is neither a parenthesis nor a quantifier. -/
  | leaf (t : Token)
  /-- A group, from its opener to the parenthesis that closes it. -/
  | group (opener : Token) (body : List Phrase)
  /-- A phrase with its quantifier. -/
  | repeated (body : Phrase) (q : Token)

mutual

/-- The tokens of a phrase. -/
def Phrase.tokens : Phrase → List Token
  | .leaf t => [t]
  | .group opener body => opener :: (phraseTokens body ++ [closeToken])
  | .repeated body q => body.tokens ++ [q]

/-- The tokens of phrases, one after the other. -/
def phraseTokens : List Phrase → List Token
  | [] => []
  | p :: ps => p.tokens ++ phraseTokens ps

end

@[simp] theorem phraseTokens_append (ps qs : List Phrase) :
    phraseTokens (ps ++ qs) = phraseTokens ps ++ phraseTokens qs := by
  induction ps with
  | nil => simp [phraseTokens]
  | cons p ps ih => simp [phraseTokens, ih]

@[simp] theorem phraseTokens_singleton (p : Phrase) : phraseTokens [p] = p.tokens := by
  simp [phraseTokens]

/-- Whether a quantifier can follow the phrase. -/
def Phrase.isTarget : Phrase → Bool
  | leaf t => t.kind.isTarget
  | group opener _ => opener.kind != .lookOpen
  | repeated _ _ => false

mutual

/-- The phrase is built as the grammar of patterns asks. -/
def Phrase.WellFormed : Phrase → Prop
  | .leaf t => t.kind.isLeaf
  | .group opener body => opener.kind.isOpen ∧ AllWellFormed body
  | .repeated body q => body.WellFormed ∧ body.isTarget ∧ q.kind.isQuantifier

/-- All phrases are built as the grammar asks. -/
def AllWellFormed : List Phrase → Prop
  | [] => True
  | p :: ps => p.WellFormed ∧ AllWellFormed ps

end

theorem allWellFormed_append {ps qs : List Phrase} :
    AllWellFormed (ps ++ qs) ↔ AllWellFormed ps ∧ AllWellFormed qs := by
  induction ps with
  | nil => simp [AllWellFormed]
  | cons p ps ih => simp [AllWellFormed, ih, and_assoc]

/-- A phrase has tokens. -/
theorem Phrase.tokens_ne_nil (p : Phrase) : p.tokens ≠ [] := by
  cases p <;> simp [Phrase.tokens]

theorem allWellFormed_singleton {p : Phrase} : AllWellFormed [p] ↔ p.WellFormed := by
  simp [AllWellFormed]

/-- **Induction over phrases**: over tokens, groups, repeated phrases, and phrases one after the
other. -/
theorem phrases_induction {P : List Phrase → Prop} (nil : P [])
    (cons : ∀ p ps, P [p] → P ps → P (p :: ps)) (leaf : ∀ t, P [.leaf t])
    (group : ∀ opener body, P body → P [.group opener body])
    (repeated : ∀ body q, P [body] → P [.repeated body q]) (ps : List Phrase) : P ps :=
  @Phrase.rec_1 (fun p => P [p]) P leaf group repeated nil cons ps

/-- **Induction over well-formed phrases.** -/
theorem AllWellFormed.induction {P : ∀ ps, AllWellFormed ps → Prop} (nil : ∀ h, P [] h)
    (cons : ∀ p ps h, ∀ hp hps, P [p] hp → P ps hps → P (p :: ps) h)
    (leaf : ∀ t h, t.kind.isLeaf → P [.leaf t] h)
    (group : ∀ opener body h hb, opener.kind.isOpen → P body hb → P [.group opener body] h)
    (repeated : ∀ body q h hb, body.isTarget → q.kind.isQuantifier → P [body] hb →
      P [.repeated body q] h) (ps : List Phrase) (h : AllWellFormed ps) : P ps h := by
  induction ps using phrases_induction with
  | nil => exact nil h
  | cons p ps ihp ihps =>
    exact cons p ps h (allWellFormed_singleton.2 h.1) h.2 (ihp _) (ihps _)
  | leaf t => exact leaf t h h.1
  | group opener body ih => exact group opener body h h.1.2 h.1.1 (ih _)
  | repeated body q ih =>
    exact repeated body q h (allWellFormed_singleton.2 h.1.1) h.1.2.1 h.1.2.2 (ih _)

/-! ## Parsing -/

/-- How far tokens have been parsed. -/
structure Parsing where
  /-- The phrases so far in the innermost open group, the last one first. -/
  phrases : List Phrase := []
  /-- The openers of the open groups from the inside out, each with the phrases before it. -/
  outer : List (Token × List Phrase) := []

namespace Parsing

/-- The parsing with one more phrase. -/
def push (s : Parsing) (p : Phrase) : Parsing :=
  { s with phrases := p :: s.phrases }

/-- The parsing after a token. There may be no group to close and nothing to repeat. -/
def step (s : Parsing) (t : Token) : Option Parsing :=
  if t.kind.isOpen then some { phrases := [], outer := (t, s.phrases) :: s.outer }
  else if t.kind = .close then
    match s.outer with
    | [] => none
    | (opener, before) :: outer =>
      some { phrases := .group opener s.phrases.reverse :: before, outer }
  else if t.kind.isQuantifier then
    match s.phrases with
    | [] => none
    | p :: ps => if p.isTarget then some { s with phrases := .repeated p t :: ps } else none
  else some (s.push (.leaf t))

end Parsing

/-- The phrases that tokens make up. -/
def parse (ts : List Token) : Option (List Phrase) :=
  match ts.foldlM Parsing.step {} with
  | some ⟨phrases, []⟩ => some phrases.reverse
  | _ => none

theorem step_leaf {t : Token} (h : t.kind.isLeaf) (s : Parsing) :
    s.step t = some (s.push (.leaf t)) := by
  rcases t with ⟨kind, text⟩
  cases kind <;> first | rfl | exact absurd h (by simp [Kind.isLeaf, Kind.isOpen])

theorem step_open {t : Token} (h : t.kind.isOpen) (s : Parsing) :
    s.step t = some { phrases := [], outer := (t, s.phrases) :: s.outer } := by
  rw [Parsing.step, if_pos h]

theorem step_close (phrases : List Phrase) (opener : Token) (before : List Phrase)
    (outer : List (Token × List Phrase)) :
    Parsing.step { phrases, outer := (opener, before) :: outer } closeToken
      = some { phrases := .group opener phrases.reverse :: before, outer } := rfl

theorem step_quantifier {q : Token} (hq : q.kind.isQuantifier) {p : Phrase} (hp : p.isTarget)
    (s : Parsing) : (s.push p).step q = some (s.push (.repeated p q)) := by
  obtain ⟨possessive, hk⟩ := Kind.exists_of_isQuantifier hq
  simp [Parsing.step, Parsing.push, Kind.isOpen, Kind.isQuantifier, hk, hp]

theorem foldlM_step_phraseTokens (ps : List Phrase) (h : AllWellFormed ps) (s : Parsing) :
    (phraseTokens ps).foldlM Parsing.step s
      = some { s with phrases := ps.reverse ++ s.phrases } := by
  induction ps, h using AllWellFormed.induction generalizing s with
  | nil => simp [phraseTokens]
  | cons p ps _ _ _ hp hps =>
    rw [phraseTokens, ← phraseTokens_singleton, List.foldlM_append, hp, Option.bind_eq_bind,
      Option.bind_some, hps]
    simp
  | leaf t _ ht => simp [Phrase.tokens, step_leaf ht, Parsing.push]
  | group opener body _ _ ho ih =>
    rw [phraseTokens_singleton, Phrase.tokens, List.foldlM_cons, step_open ho, Option.bind_eq_bind,
      Option.bind_some, List.foldlM_append, ih]
    simp [step_close]
  | repeated body q _ _ ht hq ih =>
    rw [phraseTokens_singleton] at ih
    rw [phraseTokens_singleton, Phrase.tokens, List.foldlM_append, ih]
    simpa [Parsing.push] using step_quantifier hq ht s

/-- **The tokens of well-formed phrases parse to these phrases.** -/
theorem parse_phraseTokens {ps : List Phrase} (h : AllWellFormed ps) :
    parse (phraseTokens ps) = some ps := by
  simp [parse, foldlM_step_phraseTokens ps h]

/-! ## Neighbours -/

/-- Whether the token is a reference, which a digit would extend. -/
def Token.isReference (t : Token) : Bool :=
  match t.kind with
  | .backreference _ => true
  | _ => false

/-- Whether the token begins with a digit. -/
def Token.startsWithDigit (t : Token) : Bool :=
  t.text.head?.any Char.isDigit

/-- No digit follows a reference. -/
def Token.Apart (t u : Token) : Prop :=
  t.isReference → u.startsWithDigit = false

/-- A quantifier follows something that it can repeat. -/
def Token.Carries (t u : Token) : Prop :=
  u.kind.isQuantifier → t.kind.isTarget ∨ t.kind = .close

/-- Phrases begin with no quantifier, and the quantifiers in them have something to repeat. -/
theorem isChain_carries_phraseTokens (ps : List Phrase) (h : AllWellFormed ps) :
    (∀ t ∈ (phraseTokens ps).head?, t.kind.isQuantifier = false) ∧
      (phraseTokens ps).IsChain Token.Carries := by
  induction ps, h using AllWellFormed.induction with
  | nil => simp [phraseTokens]
  | cons p ps _ _ _ hp hps =>
    rw [phraseTokens_singleton] at hp
    rw [phraseTokens, List.head?_append_of_ne_nil _ p.tokens_ne_nil, List.isChain_append]
    refine ⟨hp.1, hp.2, hps.2, fun _ _ u hu hq => ?_⟩
    exact absurd hq (by simp [hps.1 u hu])
  | leaf t _ ht =>
    refine ⟨?_, by simp [Phrase.tokens]⟩
    cases hk : t.kind <;> simp_all [Phrase.tokens, Kind.isLeaf, Kind.isQuantifier]
  | group opener body _ _ ho ih =>
    rw [phraseTokens_singleton, Phrase.tokens, List.isChain_cons, List.isChain_append]
    have hclose : closeToken.kind.isQuantifier = false := rfl
    refine ⟨?_, fun u hu hq => ?_, ih.2, by simp, fun _ _ u hu hq => ?_⟩
    · cases hk : opener.kind <;> simp_all [Kind.isOpen, Kind.isQuantifier]
    · -- what follows the opener is the beginning of the body, or the end
      cases hb : phraseTokens body with
      | nil => simp_all
      | cons v vs => simp_all
    · simp_all
  | repeated body q _ _ ht _ ih =>
    rw [phraseTokens_singleton] at ih
    rw [phraseTokens_singleton, Phrase.tokens, List.head?_append_of_ne_nil _ body.tokens_ne_nil,
      List.isChain_append]
    refine ⟨ih.1, ih.2, by simp, fun u hu _ _ _ => ?_⟩
    cases body with
    | leaf w =>
      have hw : w = u := by simpa [Phrase.tokens] using hu
      exact .inl (hw ▸ ht)
    | group opener inner =>
      rw [Phrase.tokens, ← List.cons_append, List.getLast?_concat] at hu
      exact .inr (by rw [← Option.some.inj hu]; rfl)
    | repeated _ _ => cases ht

/-- A sound token that is no quantifier does not begin like one. -/
theorem Token.Sound.head_ne {t : Token} (h : t.Sound) (hq : t.kind.isQuantifier = false) :
    ∀ c ∈ t.text.head?, c ≠ '+' ∧ c ≠ '?' := by
  obtain ⟨d, ds, ht, hs⟩ := h [] (by simp)
  intro c hc
  have hcd : d = c := by simpa [ht] using hc
  rw [← hcd]
  refine ⟨?_, ?_⟩ <;> rintro rfl
  all_goals
    have hkind : t.kind = (quantifierWithSuffix 0 (ds ++ [])).1 := by
      rw [show quantifierWithSuffix 0 (ds ++ []) = (t.kind, ds.length) from by simpa [scanAfter] using hs]
    have : (quantifierWithSuffix 0 (ds ++ [])).1.isQuantifier = true := by
      unfold quantifierWithSuffix
      split <;> rfl
    rw [← hkind, hq] at this
    cases this

end Diglot.Emitted
