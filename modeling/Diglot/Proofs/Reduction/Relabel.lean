import Diglot.Proofs.Emitted.Replacing
import Diglot.Proofs.Reduction.Render

/-!
# New names and numbers

A reduction gives captures new names and references new numbers and leaves all other tokens as they
are. `fillAll` does so in phrases, and puts another phrase where there are recursion markers.
-/

namespace Diglot.Reduction

open Emitted

variable {name : Option (List Char) → Option (List Char)} {number : Nat → Nat} {t : Token}
  {hole : Phrase}

/-- The token with the name of its capture and the number of its reference replaced. -/
def relabel (name : Option (List Char) → Option (List Char)) (number : Nat → Nat) (t : Token) :
    Token :=
  match t.kind with
  | .captureOpen title => captureToken (name title)
  | .backreference i => referenceToken (number i)
  | _ => t

theorem isReference_eq_false {t : Token} (h : ∀ i, t.kind ≠ .backreference i) :
    t.isReference = false := by
  unfold Token.isReference
  split
  next hk => exact absurd hk (h _)
  next => rfl

theorem relabel_capture {title : Option (List Char)} (h : t.kind = .captureOpen title) :
    relabel name number t = captureToken (name title) := by
  simp [relabel, h]

theorem relabel_reference {i : Nat} (h : t.kind = .backreference i) :
    relabel name number t = referenceToken (number i) := by
  simp [relabel, h]

theorem relabel_other (hc : t.captureName? = none) (hr : t.isReference = false) :
    relabel name number t = t := by
  unfold relabel
  split
  next h => simp [Token.captureName?, h] at hc
  next h => simp [Token.isReference, h] at hr
  next => rfl

/-- What a token does stays what it is. -/
theorem relabel_cases (name : Option (List Char) → Option (List Char)) (number : Nat → Nat)
    (t : Token) :
    (∃ title, t.kind = .captureOpen title ∧
      relabel name number t = captureToken (name title)) ∨
    (∃ i, t.kind = .backreference i ∧ relabel name number t = referenceToken (number i)) ∨
    (t.captureName? = none ∧ t.isReference = false ∧ relabel name number t = t) := by
  cases hc : t.captureName? with
  | some title =>
    have hk : t.kind = .captureOpen title := by
      unfold Token.captureName? at hc
      split at hc
      next h => rw [h, Option.some.inj hc]
      next => cases hc
    exact .inl ⟨title, hk, relabel_capture hk⟩
  | none =>
    cases hr : t.isReference with
    | true =>
      obtain ⟨i, hi⟩ := Token.isReference_iff.1 hr
      exact .inr (.inl ⟨i, hi, relabel_reference hi⟩)
    | false => exact .inr (.inr ⟨rfl, rfl, relabel_other hc hr⟩)

theorem kind_relabel (P : Kind → Bool) (hc : ∀ a b, P (.captureOpen a) = P (.captureOpen b))
    (hr : ∀ i j, P (.backreference i) = P (.backreference j)) :
    P (relabel name number t).kind = P t.kind := by
  rcases relabel_cases name number t with ⟨_, h, h'⟩ | ⟨_, h, h'⟩ | ⟨_, _, h'⟩ <;> rw [h']
  · rw [h]
    exact hc _ _
  · rw [h]
    exact hr _ _

@[simp] theorem isOpen_relabel : (relabel name number t).kind.isOpen = t.kind.isOpen :=
  kind_relabel _ (fun _ _ => rfl) fun _ _ => rfl

@[simp] theorem isLeaf_relabel : (relabel name number t).kind.isLeaf = t.kind.isLeaf :=
  kind_relabel _ (fun _ _ => rfl) fun _ _ => rfl

@[simp] theorem isTarget_relabel : (relabel name number t).kind.isTarget = t.kind.isTarget :=
  kind_relabel _ (fun _ _ => rfl) fun _ _ => rfl

@[simp] theorem isMarker_relabel : (relabel name number t).kind.isMarker = t.kind.isMarker :=
  kind_relabel _ (fun _ _ => rfl) fun _ _ => rfl

@[simp] theorem needsCapture_relabel :
    (relabel name number t).kind.needsCapture = t.kind.needsCapture :=
  kind_relabel Kind.needsCapture (fun _ _ => rfl) (fun _ _ => rfl)

@[simp] theorem lookOpen_relabel :
    ((relabel name number t).kind != .lookOpen) = (t.kind != .lookOpen) :=
  kind_relabel (· != .lookOpen) (fun _ _ => rfl) fun _ _ => rfl

@[simp] theorem isReference_relabel : (relabel name number t).isReference = t.isReference := by
  rcases relabel_cases name number t with ⟨_, h, h'⟩ | ⟨_, h, h'⟩ | ⟨_, _, h'⟩ <;> rw [h']
  · simp [Token.isReference, h, captureToken]
  · simp [Token.isReference, h, referenceToken]

theorem startsWithDigit_relabel (h : (relabel name number t).startsWithDigit) :
    t.startsWithDigit := by
  rcases relabel_cases name number t with ⟨title, _, h'⟩ | ⟨_, _, h'⟩ | ⟨_, _, h'⟩ <;> rw [h'] at h
  · cases hn : name title <;> simp [hn, captureToken, openerText, Token.startsWithDigit] at h
  · simp [referenceToken, referenceText, Token.startsWithDigit] at h
  · exact h

theorem eq_captureToken (h : t.Regular) {title : Option (List Char)}
    (hk : t.kind = .captureOpen title) : t = captureToken title := by
  rcases t with ⟨kind, text⟩
  cases hk
  rw [captureToken, ← h.capture rfl]

/-- Names may be kept or dropped, and numbers have to be positive. -/
theorem regular_relabel (h : t.Regular) (hname : ∀ title, name title = title ∨ name title = none)
    (hnumber : ∀ i, t.kind = .backreference i → 0 < number i) : (relabel name number t).Regular := by
  rcases relabel_cases name number t with ⟨title, hk, h'⟩ | ⟨i, hk, h'⟩ | ⟨_, _, h'⟩ <;> rw [h']
  · rcases hname title with hn | hn <;> rw [hn]
    · rwa [← eq_captureToken h hk]
    · exact regular_capture sound_capture
  · exact regular_reference (hnumber i hk)
  · exact h

/-! ## Filling holes -/

mutual

/-- The phrase with `f` applied to its tokens and `hole` in the place of markers. -/
def fill (f : Token → Token) (hole : Phrase) : Phrase → Phrase
  | .leaf t => if t.kind.isMarker then hole else .leaf (f t)
  | .group opener body => .group (f opener) (fillAll f hole body)
  | .repeated body q => .repeated (fill f hole body) q

/-- The phrases with `f` applied to their tokens and `hole` in the place of markers. -/
def fillAll (f : Token → Token) (hole : Phrase) : List Phrase → List Phrase
  | [] => []
  | p :: ps => fill f hole p :: fillAll f hole ps

end

/-- What becomes of a token. -/
def fillToken (f : Token → Token) (hole : Phrase) (t : Token) : List Token :=
  if t.kind.isMarker then hole.tokens else [f t]

theorem fillToken_of_not {f : Token → Token} {hole : Phrase} {t : Token}
    (h : t.kind.isMarker = false) : fillToken f hole t = [f t] := by
  simp [fillToken, h]

theorem Kind.isMarker_of_isOpen {k : Kind} (h : k.isOpen) : k.isMarker = false := by
  cases k <;> first | rfl | cases h

theorem fillToken_close : fillToken (relabel name number) hole closeToken = [closeToken] := rfl

theorem fillToken_quantifier {q : Token} (h : q.kind.isQuantifier) :
    fillToken (relabel name number) hole q = [q] := by
  obtain ⟨b, hb⟩ := Kind.exists_of_isQuantifier h
  simp [fillToken, relabel, hb, Kind.isMarker]

theorem tokens_fillAll (ps : List Phrase) (h : AllWellFormed ps) :
    phraseTokens (fillAll (relabel name number) hole ps)
      = (phraseTokens ps).flatMap (fillToken (relabel name number) hole) := by
  induction ps, h using AllWellFormed.induction with
  | nil => rfl
  | cons p ps _ _ _ ihp ihps =>
    rw [fillAll, fillAll, phraseTokens_singleton, phraseTokens_singleton] at ihp
    rw [fillAll, phraseTokens, phraseTokens, ihp, ihps, List.flatMap_append]
  | leaf t =>
    simp only [fillAll, fill, phraseTokens_singleton, Phrase.tokens, List.flatMap_singleton,
      fillToken]
    split <;> rfl
  | group opener body _ _ ho ih =>
    simp [fillAll, fill, Phrase.tokens, ih, fillToken_of_not (Kind.isMarker_of_isOpen ho),
      fillToken_close]
  | repeated body q _ _ _ hq ih =>
    rw [fillAll, fillAll, phraseTokens_singleton, phraseTokens_singleton] at ih
    simp [fillAll, fill, Phrase.tokens, ih, fillToken_quantifier hq]

/-- A phrase that can stand where a marker stands. -/
structure Plug (hole : Phrase) : Prop where
  legible : Legible [hole]
  target : hole.isTarget
  first : startsWithDigit [hole] = false
  last : endsInReference [hole] = false

theorem Plug.replaces (h : Plug hole) (p : Phrase) : Replaces [p] [hole] where
  legible := h.legible
  first := by simp [h.first]
  last := by simp [h.last]
  empty := by simp

theorem Plug.group {body : List Phrase} (h : Legible body) : Plug (.group groupToken body) where
  legible := .group regular_group rfl h
  target := rfl
  first := startsWithDigit_group regular_group rfl body
  last := endsInReference_group _ _

theorem isTarget_fill (hh : Plug hole) (p : Phrase) (h : p.isTarget) :
    (fill (relabel name number) hole p).isTarget := by
  cases p with
  | leaf t =>
    rw [fill]
    split
    · exact hh.target
    · simpa [Phrase.isTarget] using h
  | group opener body => simpa [fill, Phrase.isTarget] using h
  | repeated body q => simp [Phrase.isTarget] at h

/-- **Legible phrases stay legible when they are relabelled and filled.** -/
theorem replaces_fillAll (hh : Plug hole) (ps : List Phrase) (h : Legible ps)
    (hr : ∀ t ∈ phraseTokens ps, (relabel name number t).Regular) :
    Replaces ps (fillAll (relabel name number) hole ps) := by
  induction ps using phrases_induction with
  | nil => exact .nil
  | cons p ps ihp ihps =>
    replace h : Legible ([p] ++ ps) := h
    rw [phraseTokens, List.forall_mem_append] at hr
    exact .append h (ihp h.of_append.1 (by simpa using hr.1)) (ihps h.of_append.2 hr.2)
  | leaf t =>
    rw [fillAll, fillAll, fill]
    split
    · exact hh.replaces _
    · refine .leaf (hr t (by simp [Phrase.tokens])) ?_ startsWithDigit_relabel (by simp)
      simpa using h.of_leaf.2
  | group opener body ih =>
    obtain ⟨-, ho, hb⟩ := h.of_group
    rw [phraseTokens_singleton, Phrase.tokens, List.forall_mem_cons, List.forall_mem_append] at hr
    rw [fillAll, fillAll, fill]
    exact .group hr.1 (by simpa using ho) (ih hb hr.2.1).legible
  | repeated body q ih =>
    obtain ⟨hb, ht, hq, hk⟩ := h.of_repeated
    rw [phraseTokens_singleton, Phrase.tokens, List.forall_mem_append] at hr
    exact (ih hb (by simpa using hr.1)).repeated (isTarget_fill hh body ht) hq hk

end Diglot.Reduction
