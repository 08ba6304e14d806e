import Diglot.Proofs.Emitted.Replacing
import Diglot.Reduction.Possessive

/-!
# Possessive phrases

The possessive quantifiers of a pattern become greedy ones in atomic groups. The indices at which
the groups open are found from the tokens; they are the indices at which the repeated phrases
begin, so the text that is put together token by token is the text of the phrases.
-/

namespace Diglot.Reduction

open Emitted

variable {ts us tokens : List Token} {t : Token} {p : Phrase} {d : Draft} {ps : List Phrase}
  {k : Nat} {starts : List Nat}

/-- A possessive quantifier without its sign. -/
def greedyToken (q : Token) : Token := ⟨.quantifier false, q.text.dropLast⟩

mutual

/-- The phrase with atomic groups in the place of possessive quantifiers. -/
def possess : Phrase → Phrase
  | .leaf t => .leaf t
  | .group opener body => .group opener (possessAll body)
  | .repeated body q =>
    if isPossessive q then .group atomicToken [.repeated (possess body) (greedyToken q)]
    else .repeated (possess body) q

/-- The phrases with atomic groups in the place of possessive quantifiers. -/
def possessAll : List Phrase → List Phrase
  | [] => []
  | p :: ps => possess p :: possessAll ps

end

/-! ## Where the groups open -/

/-- The targets of possessive quantifiers among the tokens from index `k` on. -/
def startsAmong (tokens : List Token) (k : Nat) (ts : List Token) : Except Error (List Nat) :=
  ((ts.zipIdx k).filter (isPossessive ·.1)).mapM fun (_, i) => targetStart tokens i

theorem startsAmong_append {is js : List Nat} (ht : startsAmong tokens k ts = .ok is)
    (hu : startsAmong tokens (k + ts.length) us = .ok js) :
    startsAmong tokens k (ts ++ us) = .ok (is ++ js) := by
  rw [startsAmong] at ht hu ⊢
  rw [List.zipIdx_append, List.filter_append, List.mapM_append, ht, hu]
  rfl

theorem isPossessive_eq_false (h : t.kind.isQuantifier = false) : isPossessive t = false := by
  rw [isPossessive, decide_eq_false_iff_not]
  intro hk
  rw [hk] at h
  cases h

theorem isPossessive_of_isLeaf (h : t.kind.isLeaf) : isPossessive t = false := by
  apply isPossessive_eq_false
  cases hk : t.kind <;> simp_all [Kind.isLeaf, Kind.isQuantifier]

theorem isPossessive_of_isOpen (h : t.kind.isOpen) : isPossessive t = false := by
  apply isPossessive_eq_false
  cases hk : t.kind <;> simp_all [Kind.isOpen, Kind.isQuantifier]

/-- Tokens that stand before a quantifier as one: a group, or a token that closes none. -/
inductive Repeatable : List Token → Prop where
  | single {t : Token} (h : t.kind ≠ .close) : Repeatable [t]
  | group {opener closer : Token} {body : List Token} (ho : opener.kind.isOpen)
    (hc : closer.kind = .close) (hbody : Emitted.Balanced body) :
    Repeatable (opener :: (body ++ [closer]))

/-- **The target of a quantifier is what stands before it as one.** -/
theorem targetStart_repeatable (h : Repeatable us) (before after : List Token) :
    targetStart (before ++ (us ++ after)) (before.length + us.length) = .ok before.length := by
  cases h with
  | single h => simp [targetStart, h]
  | @group opener closer body ho hc hbody =>
    have hlength : before.length + (opener :: (body ++ [closer])).length
        = before.length + body.length + 1 + 1 := by
      simp
      omega
    have hsplit : before ++ (opener :: (body ++ [closer]) ++ after)
        = (before ++ opener :: body) ++ closer :: after := by
      simp
    have hlast : (before ++ (opener :: (body ++ [closer]) ++ after))[before.length
        + body.length + 1]? = some closer := by
      rw [hsplit, List.getElem?_append_right (by simp; omega)]
      simp [Nat.add_assoc]
    rw [hlength, targetStart, hlast]
    dsimp only
    rw [if_pos hc, List.cons_append, List.append_assoc, List.singleton_append,
      matchingOpen_balanced ho hc hbody]

theorem repeatable_tokens (hw : p.WellFormed) (ht : p.isTarget) : Repeatable p.tokens := by
  cases p with
  | leaf t =>
    refine .single fun hk => ?_
    simp [Phrase.isTarget, hk, Kind.isTarget] at ht
  | group opener body =>
    rw [Phrase.WellFormed] at hw
    exact .group hw.1 rfl (balanced_phraseTokens body hw.2)
  | repeated body q => cases ht

/-! ## The text -/

/-- The text of the tokens from index `k` on. -/
def possessiveTextFrom (starts : List Nat) (k : Nat) (ts : List Token) : Text :=
  (ts.zipIdx k).flatMap fun (t, i) => possessiveText starts t i

/-- The text that opens `n` atomic groups. -/
def openAtomics (n : Nat) : Text := (List.replicate n atomicToken.text).flatten

theorem possessiveTextFrom_append (ts us : List Token) :
    possessiveTextFrom starts k (ts ++ us)
      = possessiveTextFrom starts k ts ++ possessiveTextFrom starts (k + ts.length) us := by
  rw [possessiveTextFrom, List.zipIdx_append, List.flatMap_append]
  rfl

theorem possessiveTextFrom_singleton (t : Token) :
    possessiveTextFrom starts k [t] = possessiveText starts t k := by
  simp [possessiveTextFrom]

theorem possessiveText_of_not (h : isPossessive t = false) :
    possessiveText starts t k = openAtomics (starts.count k) ++ t.text := by
  rw [possessiveText, if_neg (by simp [h])]
  rfl

theorem possessiveText_of_possessive (h : isPossessive t) :
    possessiveText starts t k
      = openAtomics (starts.count k) ++ ((greedyToken t).text ++ closeToken.text) := by
  rw [possessiveText, if_pos h]
  rfl

/-- The groups that open before other tokens change nothing. -/
theorem possessiveTextFrom_congr {starts starts' : List Nat} (ts : List Token) (k : Nat)
    (h : ∀ i, k ≤ i → i < k + ts.length → starts.count i = starts'.count i) :
    possessiveTextFrom starts k ts = possessiveTextFrom starts' k ts := by
  refine List.flatMap_congr fun x hx => ?_
  have hi := List.mem_zipIdx hx
  simp only [possessiveText, h x.2 (by omega) (by omega)]

/-- A group that opens before the first token opens before what the token writes. -/
theorem possessiveTextFrom_concat_start {starts : List Nat} {k : Nat} (hts : ts ≠ []) :
    possessiveTextFrom (starts ++ [k]) k ts
      = atomicToken.text ++ possessiveTextFrom starts k ts := by
  obtain ⟨t, ts, rfl⟩ := List.exists_cons_of_ne_nil hts
  have hrest : possessiveTextFrom (starts ++ [k]) (k + 1) ts
      = possessiveTextFrom starts (k + 1) ts :=
    possessiveTextFrom_congr ts (k + 1) fun i hi _ => by
      rw [List.count_append, List.count_singleton, if_neg (by simp; omega), Nat.add_zero]
  have hcount : (starts ++ [k]).count k = starts.count k + 1 := by simp
  rw [show t :: ts = [t] ++ ts from rfl, possessiveTextFrom_append, possessiveTextFrom_append,
    List.length_singleton, hrest, possessiveTextFrom_singleton, possessiveTextFrom_singleton,
    possessiveText, possessiveText, hcount, List.replicate_succ]
  simp [atomicToken]

/-- Groups that open before tokens among `ts`, which stand at index `k`: with them the tokens
write `written`. -/
structure Possesses (tokens : List Token) (k : Nat) (ts : List Token) (written : Text)
    (starts : List Nat) : Prop where
  found : startsAmong tokens k ts = .ok starts
  inside : ∀ i ∈ starts, k ≤ i ∧ i < k + ts.length
  text : possessiveTextFrom starts k ts = written
  plain : starts = [] → written = textOf ts

namespace Possesses

variable {a b : Text} {starts' : List Nat}

theorem nil : Possesses tokens k [] [] [] := ⟨rfl, by simp, rfl, fun _ => rfl⟩

theorem single (h : isPossessive t = false) : Possesses tokens k [t] t.text [] where
  found := by simp [startsAmong, h, pure, Except.pure]
  inside := by simp
  text := by rw [possessiveTextFrom_singleton, possessiveText_of_not h]; rfl
  plain _ := by simp

theorem count_eq_zero (h : Possesses tokens k ts a starts) {i : Nat}
    (hi : i < k ∨ k + ts.length ≤ i) : starts.count i = 0 := by
  refine List.count_eq_zero.2 fun hmem => ?_
  have := h.inside i hmem
  omega

theorem append (h : Possesses tokens k ts a starts)
    (h' : Possesses tokens (k + ts.length) us b starts') :
    Possesses tokens k (ts ++ us) (a ++ b) (starts ++ starts') where
  found := startsAmong_append h.found h'.found
  inside i hi := by
    rw [List.length_append]
    rcases List.mem_append.1 hi with hi | hi
    · have := h.inside i hi
      omega
    · have := h'.inside i hi
      omega
  text := by
    rw [possessiveTextFrom_append, ← h.text, ← h'.text]
    congr 1
    · refine possessiveTextFrom_congr ts k fun i _ hi => ?_
      rw [List.count_append, h'.count_eq_zero (.inl hi), Nat.add_zero]
    · refine possessiveTextFrom_congr us _ fun i hi _ => ?_
      rw [List.count_append, h.count_eq_zero (.inr hi), Nat.zero_add]
  plain hnil := by
    rw [List.append_eq_nil_iff] at hnil
    rw [h.plain hnil.1, h'.plain hnil.2, textOf_append]

/-- A possessive quantifier puts what it repeats in an atomic group. -/
theorem possessive (h : Possesses tokens k ts a starts) (hts : ts ≠ []) {q : Token}
    (hq : isPossessive q) (htarget : targetStart tokens (k + ts.length) = .ok k) :
    Possesses tokens k (ts ++ [q])
      (atomicToken.text ++ a ++ ((greedyToken q).text ++ closeToken.text))
      (starts ++ [k]) where
  found := startsAmong_append h.found <| by
    simp [startsAmong, hq, htarget, pure, Except.pure, bind, Except.bind]
  inside i hi := by
    rw [List.length_append]
    rcases List.mem_append.1 hi with hi | hi
    · have := h.inside i hi
      omega
    · rw [List.mem_singleton.1 hi]
      exact ⟨Nat.le_refl k, by simp⟩
  text := by
    have hpos := List.length_pos_iff.2 hts
    have hcount : (starts ++ [k]).count (k + ts.length) = 0 := by
      rw [List.count_append, h.count_eq_zero (.inr (Nat.le_refl _)), List.count_singleton,
        if_neg (by simp [hts])]
    rw [possessiveTextFrom_append, possessiveTextFrom_concat_start hts, h.text,
      possessiveTextFrom_singleton, possessiveText_of_possessive hq, hcount]
    rfl
  plain hnil := by simp at hnil

end Possesses

/-- **The tokens of phrases write the phrases with atomic groups.** -/
theorem possesses_phraseTokens (ps : List Phrase) (h : AllWellFormed ps)
    (before after : List Token) :
    ∃ starts, Possesses (before ++ (phraseTokens ps ++ after)) before.length (phraseTokens ps)
      (textOf (phraseTokens (possessAll ps))) starts := by
  induction ps, h using AllWellFormed.induction generalizing before after with
  | nil => exact ⟨_, .nil⟩
  | cons p ps _ _ _ hp hps =>
    obtain ⟨starts, hp⟩ := hp before (phraseTokens ps ++ after)
    obtain ⟨starts', hps⟩ := hps (before ++ p.tokens) after
    rw [List.append_assoc, List.length_append] at hps
    rw [possessAll, possessAll, phraseTokens_singleton, phraseTokens_singleton] at hp
    rw [phraseTokens, possessAll, phraseTokens, List.append_assoc, textOf_append]
    exact ⟨_, hp.append hps⟩
  | leaf t _ ht =>
    exact ⟨[], by simpa [Phrase.tokens, possessAll, possess] using
      Possesses.single (isPossessive_of_isLeaf ht)⟩
  | group opener body _ _ ho ih =>
    obtain ⟨starts, hbody⟩ := ih (before ++ [opener]) (closeToken :: after)
    have hall := (Possesses.single (k := before.length) (isPossessive_of_isOpen ho)).append
      (.append (by simpa using hbody) (.single (t := closeToken) rfl))
    exact ⟨_, by simpa [Phrase.tokens, possessAll, possess, textOf_append] using hall⟩
  | repeated body q _ hb ht _ ih =>
    obtain ⟨starts, hbody⟩ := ih before (q :: after)
    have htarget := targetStart_repeatable (repeatable_tokens (allWellFormed_singleton.1 hb) ht)
      before (q :: after)
    by_cases hq : isPossessive q
    · have hall := hbody.possessive (by simpa using body.tokens_ne_nil) hq (by simpa using htarget)
      exact ⟨_, by simpa [Phrase.tokens, possessAll, possess, hq, textOf_append] using hall⟩
    · have hall := hbody.append (.single (by simpa using hq))
      exact ⟨_, by simpa [Phrase.tokens, possessAll, possess, hq, textOf_append] using hall⟩

/-- A draft without possessive quantifiers stays as it is. -/
theorem groupPossessive_of_not_possessive (hs : scan d.text = .ok ts)
    (h : ∀ t ∈ ts, isPossessive t = false) : groupPossessive d = .ok d := by
  have hnone : ts.zipIdx.filter (isPossessive ·.1) = [] :=
    List.filter_eq_nil_iff.2 fun x hx => by simp [h x.1 (List.fst_mem_of_mem_zipIdx hx)]
  have hstarts : targetStarts ts = .ok [] := by
    rw [targetStarts, hnone]
    rfl
  rw [groupPossessive, hs]
  show (do let starts ← targetStarts ts; _) = _
  rw [hstarts]
  rfl

/-- **Possessive quantifiers are written as atomic groups around the phrases they repeat.** -/
theorem groupPossessive_eq (hw : AllWellFormed ps) (ht : d.text = textOf (phraseTokens ps))
    (hs : scan d.text = .ok (phraseTokens ps)) :
    groupPossessive d = .ok { d with text := textOf (phraseTokens (possessAll ps)) } := by
  obtain ⟨starts, h⟩ := possesses_phraseTokens ps hw [] []
  rw [List.append_nil, List.nil_append, List.length_nil] at h
  have hstarts := h.found
  rw [startsAmong] at hstarts
  unfold groupPossessive
  rw [hs]
  simp only [bind, Except.bind, targetStarts]
  rw [hstarts]
  dsimp only
  split
  next hempty =>
    rw [h.plain (List.isEmpty_iff.1 hempty), ← ht]
    rfl
  next => rw [← h.text]; rfl

/-! ## Possessive phrases -/

theorem regular_greedyToken {q : Token} (h : q.Regular) (hq : isPossessive q) :
    (greedyToken q).Regular := by
  obtain ⟨s, hs, htext⟩ := h.sign (of_decide_eq_true hq)
  have hsound := sound_sign hs .greedy
  rw [suffixText, List.append_nil] at hsound
  rw [greedyToken, htext, List.dropLast_concat]
  exact {
    sound := fun _ => hsound
    reference := fun hk => by cases hk
    capture := fun hk => by cases hk
    sign := fun hk => by cases hk }

theorem isTarget_possess (h : p.isTarget) : (possess p).isTarget := by
  cases p with
  | leaf t => exact h
  | group opener body => exact h
  | repeated body q => cases h

theorem replaces_possessAll (ps : List Phrase) (h : Legible ps) : Replaces ps (possessAll ps) := by
  induction ps using phrases_induction with
  | nil => exact .nil
  | cons p ps hp hps =>
    replace h : Legible ([p] ++ ps) := h
    exact .append h (hp h.of_append.1) (hps h.of_append.2)
  | leaf t => exact .leaf h.of_leaf.1 h.of_leaf.2 id id
  | group opener body ih =>
    obtain ⟨hr, ho, hb⟩ := h.of_group
    exact .group hr ho (ih hb).legible
  | repeated body q ih =>
    obtain ⟨hb, ht, hr, hk⟩ := h.of_repeated
    rw [possessAll, possess]
    split
    next hq =>
      refine .group regular_atomic rfl ?_
      exact (ih hb).legible.repeated (isTarget_possess ht) (regular_greedyToken hr hq) rfl
    next => exact (ih hb).repeated (isTarget_possess ht) hr hk

/-- The tally with atomic groups in the place of possessive quantifiers. -/
def possessTally (a : Tally) : Tally :=
  { a with atomics := a.atomics + a.possessives, possessives := 0 }

theorem possessTally_append (a b : Tally) :
    possessTally (a ++ b) = possessTally a ++ possessTally b := by
  ext1
  · rfl
  · rfl
  · simp [possessTally]
    omega
  · rfl

theorem possessTally_groupTally (opener : Token) (a : Tally) :
    possessTally (groupTally opener a) = groupTally opener (possessTally a) := by
  unfold groupTally
  split
  · rfl
  · ext1
    · rfl
    · rfl
    · simp [possessTally, Tally.atomic]
      omega
    · rfl
  · rfl

/-- **Every possessive quantifier becomes an atomic group, and nothing else changes.** -/
theorem tallyAll_possessAll (ps : List Phrase) :
    tallyAll (possessAll ps) = possessTally (tallyAll ps) := by
  induction ps using phrases_induction with
  | nil => rfl
  | cons p ps hp hps =>
    rw [possessAll, possessAll, tallyAll_singleton, tallyAll_singleton] at hp
    rw [possessAll, tallyAll, tallyAll, hp, hps, possessTally_append]
  | leaf t =>
    rw [possessAll, possess, possessAll, tallyAll_singleton, Phrase.tally, leafTally]
    split <;> rfl
  | group opener body ih =>
    rw [possessAll, possess, possessAll, tallyAll_singleton, tallyAll_singleton, Phrase.tally,
      Phrase.tally, ih, possessTally_groupTally]
  | repeated body q ih =>
    rw [possessAll, possessAll, tallyAll_singleton, tallyAll_singleton] at ih
    rw [possessAll, possess, possessAll, tallyAll_singleton, tallyAll_singleton]
    split
    next hq =>
      rw [Phrase.tally, Phrase.tally, tallyAll_singleton, Phrase.tally, ih, of_decide_eq_true hq]
      simp [groupTally, atomicToken, Tally.atomic, Tally.repeated, possessTally, greedyToken,
        Nat.add_assoc]
    next hq =>
      rw [Phrase.tally, Phrase.tally, ih]
      have hk : q.kind ≠ .quantifier true := by simpa [isPossessive] using hq
      simp [Tally.repeated, possessTally, hk]

/-- The references among the tokens are those of the pattern. -/
theorem mem_phraseTokens_of_possessAll (hr : t.isReference) (ps : List Phrase)
    (h : t ∈ phraseTokens (possessAll ps)) : t ∈ phraseTokens ps := by
  have hclose : t ≠ closeToken := fun hk => by cases hk ▸ hr
  induction ps using phrases_induction with
  | nil => exact h
  | cons p ps hp hps =>
    rw [possessAll, phraseTokens, List.mem_append] at h
    rw [phraseTokens, List.mem_append]
    exact h.imp (fun h => by simpa using hp (by simpa [possessAll] using h)) hps
  | leaf u => exact h
  | group opener body ih =>
    simp only [possessAll, possess, phraseTokens_singleton, Phrase.tokens, List.mem_cons,
      List.mem_append] at h ⊢
    exact h.imp_right (.imp_left ih)
  | repeated body q ih =>
    simp only [possessAll, phraseTokens_singleton] at ih
    rw [possessAll, possess] at h
    split at h
    next hq =>
      have hgreedy : t ≠ greedyToken q := fun hk => by cases hk ▸ hr
      have hatomic : t ≠ atomicToken := fun hk => by cases hk ▸ hr
      simp [possessAll, Phrase.tokens, hgreedy, hatomic, hclose] at h
      simp [Phrase.tokens, ih h]
    next =>
      simp only [possessAll, phraseTokens_singleton, Phrase.tokens, List.mem_append] at h ⊢
      exact h.imp_left ih

theorem titles_possessAll (h : Legible ps) :
    (phraseTokens (possessAll ps)).filterMap (·.captureName?)
      = (phraseTokens ps).filterMap (·.captureName?) := by
  have hwell := (replaces_possessAll ps h).legible.wellFormed
  rw [← (counts_tallyAll _ hwell).titles, ← (counts_tallyAll ps h.wellFormed).titles,
    tallyAll_possessAll]
  rfl

theorem coherent_possessAll (h : Coherent ps) : Coherent (possessAll ps) where
  legible := (replaces_possessAll ps h.legible).legible
  references t ht i hk := by
    rw [captureCount, titles_possessAll h.legible]
    exact h.references t (mem_phraseTokens_of_possessAll (by rw [Token.isReference, hk]) ps ht) i hk

end Diglot.Reduction
