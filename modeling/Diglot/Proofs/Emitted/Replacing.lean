import Diglot.Proofs.Emitted.Legible
import Diglot.Proofs.Emitted.Tally

/-!
# Replacing phrases

A reduction replaces phrases of a pattern by others. `Replaces ps qs` says what is needed for that:
`qs` is legible, and it fits between the neighbours of `ps`. It is built up along the phrases.
-/

namespace Diglot.Emitted

/-- Whether the text of the phrases begins with a digit. -/
def startsWithDigit (ps : List Phrase) : Bool :=
  (phraseTokens ps).head?.any (·.startsWithDigit)

/-- Whether the text of the phrases ends in a reference. -/
def endsInReference (ps : List Phrase) : Bool :=
  (phraseTokens ps).getLast?.any (·.isReference)

/-! ## Parts of legible phrases -/

namespace Legible

variable {ps qs body : List Phrase} {t opener q : Token} {p : Phrase}

theorem of_append (h : Legible (ps ++ qs)) : Legible ps ∧ Legible qs := by
  have hw := allWellFormed_append.1 h.wellFormed
  have hr := h.regular
  have ha := h.apart
  rw [phraseTokens_append] at hr ha
  rw [List.forall_mem_append] at hr
  rw [List.isChain_append] at ha
  exact ⟨⟨hw.1, hr.1, ha.1⟩, ⟨hw.2, hr.2, ha.2.1⟩⟩

/-- No digit follows a reference. -/
theorem not_digit (h : Legible (ps ++ qs)) (hr : endsInReference ps) :
    startsWithDigit qs = false := by
  have ha := h.apart
  rw [phraseTokens_append, List.isChain_append] at ha
  obtain ⟨t, ht, href⟩ := (Option.any_eq_true _ _).1 hr
  unfold startsWithDigit
  cases hq : (phraseTokens qs).head? with
  | none => rfl
  | some u => exact ha.2.2 t ht u hq href

theorem of_leaf (h : Legible [.leaf t]) : t.Regular ∧ t.kind.isLeaf :=
  ⟨h.regular t (by simp [Phrase.tokens]), allWellFormed_singleton.1 h.wellFormed⟩

theorem of_group (h : Legible [.group opener body]) :
    opener.Regular ∧ opener.kind.isOpen ∧ Legible body := by
  have hw := allWellFormed_singleton.1 h.wellFormed
  have hr := h.regular
  have ha := h.apart
  rw [phraseTokens_singleton, Phrase.tokens] at hr ha
  rw [List.forall_mem_cons, List.forall_mem_append] at hr
  rw [List.isChain_cons, List.isChain_append] at ha
  exact ⟨hr.1, hw.1, hw.2, hr.2.1, ha.2.1⟩

theorem of_repeated (h : Legible [.repeated p q]) :
    Legible [p] ∧ p.isTarget ∧ q.Regular ∧ q.kind.isQuantifier := by
  have hw := allWellFormed_singleton.1 h.wellFormed
  have hr := h.regular
  have ha := h.apart
  rw [phraseTokens_singleton, Phrase.tokens] at hr ha
  rw [List.forall_mem_append] at hr
  rw [List.isChain_append] at ha
  refine ⟨⟨allWellFormed_singleton.2 hw.1, ?_, ?_⟩, hw.2.1, hr.2 q (by simp), hw.2.2⟩
  · rw [phraseTokens_singleton]
    exact hr.1
  · rw [phraseTokens_singleton]
    exact ha.1

end Legible

/-! ## Edges -/

theorem startsWithDigit_append (ps qs : List Phrase) :
    startsWithDigit (ps ++ qs) = if ps = [] then startsWithDigit qs else startsWithDigit ps := by
  unfold startsWithDigit
  split
  next h => rw [h]; rfl
  next h =>
    have hne : phraseTokens ps ≠ [] := fun hn => h (phraseTokens_eq_nil hn)
    rw [phraseTokens_append, List.head?_append_of_ne_nil _ hne]

theorem endsInReference_append (ps qs : List Phrase) :
    endsInReference (ps ++ qs) = if qs = [] then endsInReference ps else endsInReference qs := by
  unfold endsInReference
  split
  next h => rw [h, List.append_nil]
  next h =>
    have hne : phraseTokens qs ≠ [] := fun hn => h (phraseTokens_eq_nil hn)
    rw [phraseTokens_append, List.getLast?_append_of_ne_nil _ hne]

theorem startsWithDigit_group {opener : Token} (hr : opener.Regular) (ho : opener.kind.isOpen)
    (body : List Phrase) : startsWithDigit [.group opener body] = false := by
  have hdigit := hr.startsWithDigit_eq_false fun ha => by simp [ha, Kind.isOpen] at ho
  simpa [startsWithDigit, Phrase.tokens] using hdigit

theorem endsInReference_group (opener : Token) (body : List Phrase) :
    endsInReference [.group opener body] = false := by
  rw [endsInReference, phraseTokens_singleton, Phrase.tokens, ← List.cons_append,
    List.getLast?_concat]
  rfl

theorem endsInReference_repeated {q : Token} (hq : q.kind.isQuantifier) (p : Phrase) :
    endsInReference [.repeated p q] = false := by
  obtain ⟨b, hb⟩ := Kind.exists_of_isQuantifier hq
  simp [endsInReference, Phrase.tokens, Token.isReference, hb]

theorem startsWithDigit_repeated (p : Phrase) (q : Token) :
    startsWithDigit [.repeated p q] = startsWithDigit [p] := by
  unfold startsWithDigit
  rw [phraseTokens_singleton, Phrase.tokens, phraseTokens_singleton,
    List.head?_append_of_ne_nil _ p.tokens_ne_nil]

/-! ## Replacing -/

/-- Legible phrases `qs` that can stand where `ps` stand. -/
structure Replaces (ps qs : List Phrase) : Prop where
  legible : Legible qs
  first : startsWithDigit qs → startsWithDigit ps
  last : endsInReference qs → endsInReference ps
  empty : qs = [] ↔ ps = []

namespace Replaces

variable {ps ps' qs qs' body body' : List Phrase} {t t' opener opener' q q' : Token} {p p' : Phrase}

theorem nil : Replaces [] [] := ⟨.nil, id, id, Iff.rfl⟩

theorem append (h : Legible (ps ++ qs)) (hp : Replaces ps ps') (hq : Replaces qs qs') :
    Replaces (ps ++ qs) (ps' ++ qs') where
  legible := by
    refine hp.legible.append hq.legible fun t ht u hu hr => ?_
    rw [← Bool.not_eq_true]
    intro hd
    have hlast : endsInReference ps' := (Option.any_eq_true _ _).2 ⟨t, ht, hr⟩
    have hfirst : startsWithDigit qs' := (Option.any_eq_true _ _).2 ⟨u, hu, hd⟩
    have hnot := h.not_digit (hp.last hlast)
    rw [hq.first hfirst] at hnot
    cases hnot
  first := by
    rw [startsWithDigit_append, startsWithDigit_append]
    simp only [hp.empty]
    split
    · exact hq.first
    · exact hp.first
  last := by
    rw [endsInReference_append, endsInReference_append]
    simp only [hq.empty]
    split
    · exact hp.last
    · exact hq.last
  empty := by simp [hp.empty, hq.empty]

theorem leaf (hr : t'.Regular) (hk : t'.kind.isLeaf) (hd : t'.startsWithDigit → t.startsWithDigit)
    (href : t'.isReference → t.isReference) : Replaces [.leaf t] [.leaf t'] where
  legible := .leaf hr hk
  first := by simpa [startsWithDigit, Phrase.tokens] using hd
  last := by simpa [endsInReference, Phrase.tokens] using href
  empty := by simp

/-- A group can stand where any single phrase can. -/
theorem group (hr : opener'.Regular) (ho : opener'.kind.isOpen) (hb : Legible body') :
    Replaces [p] [.group opener' body'] where
  legible := .group hr ho hb
  first := by simp [startsWithDigit_group hr ho]
  last := by simp [endsInReference_group]
  empty := by simp

theorem repeated (h : Replaces [p] [p']) (ht : p'.isTarget) (hr : q'.Regular)
    (hq : q'.kind.isQuantifier) : Replaces [.repeated p q] [.repeated p' q'] where
  legible := h.legible.repeated ht hr hq
  first := by
    rw [startsWithDigit_repeated, startsWithDigit_repeated]
    exact h.first
  last := by simp [endsInReference_repeated hq]
  empty := by simp

end Replaces

/-! ## Coherent phrases -/

/-- Every reference among the tokens is to one of the first `n` captures. -/
def RefersWithin (n : Nat) (ts : List Token) : Prop :=
  ∀ t ∈ ts, ∀ i, t.kind = .backreference i → i ≤ n

/-- Legible phrases with references to captures that they have. -/
structure Coherent (ps : List Phrase) : Prop where
  legible : Legible ps
  references : RefersWithin (captureCount (phraseTokens ps)) (phraseTokens ps)

/-- The numbers of references in coherent phrases. -/
theorem Coherent.reference {ps : List Phrase} (h : Coherent ps) {t : Token}
    (ht : t ∈ phraseTokens ps) {i : Nat} (hk : t.kind = .backreference i) :
    0 < i ∧ i ≤ captureCount (phraseTokens ps) :=
  ⟨((h.legible.regular t ht).reference hk).1, h.references t ht i hk⟩

end Diglot.Emitted
