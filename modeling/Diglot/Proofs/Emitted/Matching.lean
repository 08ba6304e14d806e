import Diglot.Proofs.Emitted.Phrase

/-!
# Parentheses that match

The tokens of phrases are balanced, and the two searches for a matching parenthesis pass over
balanced tokens, so from one end of a group they find the other. A text that counts as one thing for
a quantifier is a single phrase that can be repeated (`exists_target_of_isAtomic`).
-/

namespace Diglot.Emitted

variable {ts : List Token} {k : Kind} {depth : Nat} {t opener closer : Token}
  {body ps : List Phrase}

/-! ## Balanced tokens -/

/-- Every token that opens a group has one that closes it, and the other way round. -/
inductive Balanced : List Token → Prop where
  | nil : Balanced []
  | plain {t : Token} {ts : List Token} (ho : t.kind.isOpen = false) (hc : t.kind ≠ .close)
    (h : Balanced ts) : Balanced (t :: ts)
  | group {opener closer : Token} {body rest : List Token} (ho : opener.kind.isOpen)
    (hc : closer.kind = .close) (hbody : Balanced body) (hrest : Balanced rest) :
    Balanced (opener :: (body ++ closer :: rest))

theorem Balanced.append {us : List Token} (hts : Balanced ts) (hus : Balanced us) :
    Balanced (ts ++ us) := by
  induction hts with
  | nil => exact hus
  | plain ho hc _ ih => exact .plain ho hc ih
  | group ho hc hbody _ _ ih =>
    rw [List.cons_append, List.append_assoc]
    exact .group ho hc hbody ih

theorem Kind.isLeaf_not_open (h : k.isLeaf) : k.isOpen = false ∧ k ≠ .close := by
  cases k <;> simp_all [isLeaf, isOpen]

theorem Kind.isQuantifier_not_open (h : k.isQuantifier) : k.isOpen = false ∧ k ≠ .close := by
  cases k <;> simp_all [isQuantifier, isOpen]

theorem balanced_phraseTokens (ps : List Phrase) (h : AllWellFormed ps) :
    Balanced (phraseTokens ps) := by
  induction ps, h using AllWellFormed.induction with
  | nil => exact .nil
  | cons p ps _ _ _ ihp ihps => simpa [phraseTokens] using ihp.append ihps
  | leaf t _ ht => exact .plain (Kind.isLeaf_not_open ht).1 (Kind.isLeaf_not_open ht).2 .nil
  | group opener body _ _ ho ih =>
    simpa [Phrase.tokens] using Balanced.group ho (rfl : closeToken.kind = .close) ih .nil
  | repeated body q _ _ _ hq ih =>
    obtain ⟨ho, hc⟩ := Kind.isQuantifier_not_open hq
    simpa [Phrase.tokens] using ih.append (.plain ho hc .nil)

/-- Whether the tokens close `depth` groups that are open, and all that they open. -/
def closesEach : Nat → List Token → Bool
  | depth, [] => depth == 0
  | depth, t :: ts =>
    if t.kind.isOpen then closesEach (depth + 1) ts
    else if t.kind = .close then depth != 0 && closesEach (depth - 1) ts
    else closesEach depth ts

theorem closesEach_open (h : t.kind.isOpen) : closesEach depth (t :: ts) = closesEach (depth + 1) ts :=
  if_pos h

theorem closesEach_closer (h : t.kind = .close) :
    closesEach (depth + 1) (t :: ts) = closesEach depth ts := by
  simp [closesEach, h, Kind.isOpen]

theorem closesEach_other (ho : t.kind.isOpen = false) (hc : t.kind ≠ .close) :
    closesEach depth (t :: ts) = closesEach depth ts :=
  (if_neg (by simp [ho])).trans (if_neg hc)

theorem Balanced.closesEach (h : Balanced ts) (depth : Nat) (rest : List Token) :
    closesEach depth (ts ++ rest) = closesEach depth rest := by
  induction h generalizing depth rest with
  | nil => rfl
  | plain ho hc _ ih => rw [List.cons_append, closesEach_other ho hc, ih]
  | group ho hc _ _ ihbody ihrest =>
    rw [List.cons_append, closesEach_open ho, List.append_assoc, ihbody, List.cons_append,
      closesEach_closer hc, ihrest]

/-- Tokens that close groups begin with balanced ones, and go on with the first that is closed. -/
theorem exists_of_closesEach (h : closesEach depth ts = true) :
    ∃ body rest, ts = body ++ rest ∧ Balanced body ∧ (depth = 0 → rest = []) ∧
      ∀ outer, depth = outer + 1 → ∃ closer others, rest = closer :: others ∧ closer.kind = .close ∧
        closesEach outer others = true := by
  -- after a group the tokens go on with fewer than a tail, so the induction is on their number
  induction hn : ts.length using Nat.strongRecOn generalizing depth ts with
  | ind n ih =>
    subst hn
    cases ts with
    | nil =>
      have hdepth : depth = 0 := by simpa [closesEach] using h
      exact ⟨[], [], rfl, .nil, fun _ => rfl, fun outer ho => by omega⟩
    | cons t ts =>
      rw [closesEach] at h
      by_cases ho : t.kind.isOpen
      · rw [if_pos ho] at h
        obtain ⟨inner, rest, rfl, hinner, -, hrest⟩ := ih _ (Nat.lt_succ_self _) h rfl
        obtain ⟨closer, others, rfl, hc, hothers⟩ := hrest depth rfl
        obtain ⟨body, rest, rfl, hbody, hzero, hsucc⟩ := ih _ (by simp; omega) hothers rfl
        exact ⟨t :: (inner ++ closer :: body), rest, by simp, .group ho hc hinner hbody, hzero,
          hsucc⟩
      · rw [if_neg ho] at h
        by_cases hc : t.kind = .close
        · rw [if_pos hc, Bool.and_eq_true, bne_iff_ne] at h
          refine ⟨[], t :: ts, rfl, .nil, fun hdepth => absurd hdepth h.1, fun outer hdepth => ?_⟩
          exact ⟨t, ts, rfl, hc, by simpa [hdepth] using h.2⟩
        · rw [if_neg hc] at h
          obtain ⟨body, rest, rfl, hbody, hrest⟩ := ih _ (Nat.lt_succ_self _) h rfl
          exact ⟨t :: body, rest, rfl, .plain (by simpa using ho) hc hbody, hrest⟩

theorem balanced_iff : Balanced ts ↔ closesEach 0 ts = true := by
  constructor
  · intro h
    simpa [closesEach] using h.closesEach 0 []
  · intro h
    obtain ⟨body, rest, rfl, hbody, hrest, -⟩ := exists_of_closesEach h
    rwa [hrest rfl, List.append_nil]

instance (ts : List Token) : Decidable (Balanced ts) :=
  decidable_of_iff _ balanced_iff.symm

/-! ## Forwards -/

theorem closeFrom_open (h : t.kind.isOpen) (i depth : Nat) (ts : List Token) :
    closeFrom i depth (t :: ts) = closeFrom (i + 1) (depth + 1) ts := by
  rw [closeFrom.eq_def]
  exact if_pos h

theorem closeFrom_other (ho : t.kind.isOpen = false) (hc : t.kind ≠ .close) (i depth : Nat)
    (ts : List Token) : closeFrom i depth (t :: ts) = closeFrom (i + 1) depth ts := by
  rw [closeFrom.eq_def]
  exact (if_neg (by simp [ho])).trans (if_neg hc)

theorem closeFrom_closer (hc : t.kind = .close) (i depth : Nat) (ts : List Token) :
    closeFrom i (depth + 1) (t :: ts)
      = if depth = 0 then some i else closeFrom (i + 1) depth ts := by
  have ho : t.kind.isOpen = false := by rw [hc]; rfl
  rw [closeFrom.eq_def]
  dsimp only
  rw [if_neg (by simp [ho]), if_pos hc]
  cases depth with
  | zero => rfl
  | succ depth => rfl

theorem Balanced.closeFrom (h : Balanced ts) (i depth : Nat) (rest : List Token) :
    closeFrom i (depth + 1) (ts ++ rest) = closeFrom (i + ts.length) (depth + 1) rest := by
  induction h generalizing i depth rest with
  | nil => rfl
  | plain ho hc _ ih =>
    rw [List.cons_append, closeFrom_other ho hc, ih, List.length_cons]
    congr 1
    omega
  | @group opener closer body others ho hc _ _ ihbody ihrest =>
    rw [List.cons_append, closeFrom_open ho, List.append_assoc, ihbody, List.cons_append,
      closeFrom_closer hc, if_neg (by omega), ihrest]
    congr 1
    simp
    omega

/-- **A group closes after its balanced body.** -/
theorem matchingClose_balanced {body : List Token} (ho : opener.kind.isOpen)
    (hc : closer.kind = .close) (h : Balanced body) (before after : List Token) :
    matchingClose (before ++ opener :: (body ++ closer :: after)) before.length
      = some (before.length + body.length + 1) := by
  rw [matchingClose, List.drop_left, closeFrom_open ho, h.closeFrom, closeFrom_closer hc,
    if_pos rfl]
  congr 1
  omega

/-- **The group that opens after `before` closes after its body.** -/
theorem matchingClose_group (h : (Phrase.group opener body).WellFormed) (before after : List Token)
    :
    matchingClose (before ++ ((Phrase.group opener body).tokens ++ after)) before.length
      = some (before.length + (phraseTokens body).length + 1) := by
  rw [Phrase.WellFormed] at h
  rw [Phrase.tokens, List.cons_append, List.append_assoc]
  exact matchingClose_balanced h.1 rfl (balanced_phraseTokens body h.2) before after

/-! ## Backwards -/

theorem openFrom_closer (hc : t.kind = .close) (i depth : Nat) (ts : List Token) :
    openFrom i depth (t :: ts) = openFrom (i - 1) (depth + 1) ts := by
  rw [openFrom.eq_def]
  exact if_pos hc

theorem openFrom_other (ho : t.kind.isOpen = false) (hc : t.kind ≠ .close) (i depth : Nat)
    (ts : List Token) : openFrom i depth (t :: ts) = openFrom (i - 1) depth ts := by
  rw [openFrom.eq_def]
  exact (if_neg hc).trans (if_neg (by simp [ho]))

theorem openFrom_open (h : t.kind.isOpen) (i depth : Nat) (ts : List Token) :
    openFrom i (depth + 1) (t :: ts)
      = if depth = 0 then some (i - 1) else openFrom (i - 1) depth ts := by
  have hc : t.kind ≠ .close := by
    intro hc
    rw [hc] at h
    exact absurd h (by decide)
  rw [openFrom.eq_def]
  dsimp only
  rw [if_neg hc, if_pos h]
  cases depth with
  | zero => rfl
  | succ depth => rfl

theorem Balanced.openFrom (h : Balanced ts) (i depth : Nat) (rest : List Token) :
    openFrom i (depth + 1) (ts.reverse ++ rest) = openFrom (i - ts.length) (depth + 1) rest := by
  induction h generalizing i depth rest with
  | nil => rfl
  | plain ho hc _ ih =>
    rw [List.reverse_cons, List.append_assoc, ih, List.singleton_append, openFrom_other ho hc,
      List.length_cons, Nat.sub_sub]
  | @group opener closer body others ho hc _ _ ihbody ihrest =>
    rw [List.reverse_cons, List.reverse_append, List.reverse_cons, List.append_assoc,
      List.append_assoc, List.append_assoc, ihrest, List.singleton_append, openFrom_closer hc,
      ihbody, List.singleton_append, openFrom_open ho, if_neg (by omega)]
    congr 1
    simp
    omega

/-- **A group opens before its balanced body.** -/
theorem matchingOpen_balanced {body : List Token} (ho : opener.kind.isOpen)
    (hc : closer.kind = .close) (h : Balanced body) (before after : List Token) :
    matchingOpen (before ++ opener :: (body ++ closer :: after)) (before.length + body.length + 1)
      = some before.length := by
  have htake : (before ++ opener :: (body ++ closer :: after)).take
      (before.length + body.length + 1 + 1) = before ++ opener :: (body ++ [closer]) := by
    have hsplit : before ++ opener :: (body ++ closer :: after)
        = (before ++ opener :: (body ++ [closer])) ++ after := by simp
    rw [hsplit, List.take_left' (by simp; omega)]
  rw [matchingOpen, htake, List.reverse_append, List.reverse_cons, List.reverse_append,
    List.reverse_singleton, List.append_assoc, List.append_assoc, List.singleton_append,
    openFrom_closer hc, h.openFrom, List.singleton_append, openFrom_open ho, if_pos rfl]
  congr 1
  omega

/-- **The group that closes after its body opens after `before`.** -/
theorem matchingOpen_group (h : (Phrase.group opener body).WellFormed) (before after : List Token) :
    matchingOpen (before ++ ((Phrase.group opener body).tokens ++ after))
      (before.length + (phraseTokens body).length + 1) = some before.length := by
  rw [Phrase.WellFormed] at h
  rw [Phrase.tokens, List.cons_append, List.append_assoc]
  exact matchingOpen_balanced h.1 rfl (balanced_phraseTokens body h.2) before after

/-- The search goes back to a token that opens a group, over tokens that leave `depth` groups
open. -/
theorem exists_of_openFrom {i k : Nat} {rs : List Token} (h : openFrom i (depth + 1) rs = some k) :
    ∃ inner opener outer, rs = inner ++ opener :: outer ∧ opener.kind.isOpen ∧
      k = i - inner.length - 1 ∧
      ∀ n rest, closesEach n (inner.reverse ++ rest) = closesEach (n + depth) rest := by
  induction rs generalizing i depth with
  | nil => cases h
  | cons t rs ih =>
    by_cases hfound : t.kind.isOpen ∧ depth = 0
    · obtain ⟨ho, rfl⟩ := hfound
      rw [openFrom_open ho, if_pos rfl] at h
      exact ⟨[], t, rs, rfl, ho, (Option.some.inj h).symm, fun _ _ => rfl⟩
    · -- the search goes on, with another number of open groups if the token is a parenthesis
      obtain ⟨depth', hgo, hstep⟩ : ∃ depth', openFrom (i - 1) (depth' + 1) rs = some k ∧
          ∀ n rest, closesEach (n + depth') (t :: rest) = closesEach (n + depth) rest := by
        by_cases hc : t.kind = .close
        · rw [openFrom_closer hc] at h
          exact ⟨depth + 1, h, fun _ _ => closesEach_closer hc⟩
        by_cases ho : t.kind.isOpen
        · obtain ⟨depth', rfl⟩ := Nat.exists_eq_succ_of_ne_zero fun h0 => hfound ⟨ho, h0⟩
          rw [openFrom_open ho, if_neg (by omega)] at h
          exact ⟨depth', h, fun _ _ => closesEach_open ho⟩
        · rw [Bool.not_eq_true] at ho
          rw [openFrom_other ho hc] at h
          exact ⟨depth, h, fun _ _ => closesEach_other ho hc⟩
      obtain ⟨inner, opener, outer, rfl, ho, rfl, hinner⟩ := ih hgo
      refine ⟨t :: inner, opener, outer, rfl, ho, by simp; omega, fun n rest => ?_⟩
      rw [List.reverse_cons, List.append_assoc, hinner, List.singleton_append, hstep]

/-- **The token that is found from a closing one opens a group with a balanced body.** -/
theorem exists_of_matchingOpen {before after : List Token} {k : Nat} (hc : closer.kind = .close)
    (h : matchingOpen (before ++ closer :: after) before.length = some k) :
    ∃ outer opener body, before = outer ++ opener :: body ∧ opener.kind.isOpen ∧ Balanced body ∧
      k = outer.length := by
  have htake : ((before ++ closer :: after).take (before.length + 1)).reverse
      = closer :: before.reverse := by
    simp [List.take_append, List.take_of_length_le]
  rw [matchingOpen, htake, openFrom_closer hc] at h
  obtain ⟨inner, opener, outer, hrev, ho, hk, hbody⟩ := exists_of_openFrom h
  obtain rfl : before = outer.reverse ++ opener :: inner.reverse := by
    have hback := congrArg List.reverse hrev
    simpa using hback
  refine ⟨outer.reverse, opener, inner.reverse, rfl, ho, balanced_iff.2 ?_, ?_⟩
  · simpa [closesEach] using hbody 0 []
  · simp at hk ⊢
    omega

/-! ## Single phrases -/

/-- A group that closes before the end is not one thing. -/
theorem isAtomic_group (h : (Phrase.group opener body).WellFormed) (after : List Token)
    (ha : isAtomic ((Phrase.group opener body).tokens ++ after) = true) :
    after = [] ∧ opener.kind ≠ .lookOpen := by
  have hclose := matchingClose_group h [] after
  rw [Phrase.tokens, List.cons_append, isAtomic] at ha
  · simp only [Bool.and_eq_true, beq_iff_eq, bne_iff_ne] at ha
    rw [List.nil_append, Phrase.tokens, List.cons_append, List.length_nil, ha.2] at hclose
    refine ⟨?_, ha.1.2⟩
    have hlen := Option.some.inj hclose
    simp only [List.length_append, List.length_singleton] at hlen
    exact List.eq_nil_of_length_eq_zero (by omega)
  · simp

/-- A leaf with something after it is not one thing. -/
theorem isAtomic_leaf (h : t.kind.isLeaf) (after : List Token) (ha : isAtomic (t :: after) = true) :
    after = [] ∧ t.kind.isTarget := by
  cases after with
  | nil =>
    refine ⟨rfl, ?_⟩
    cases hk : t.kind <;> simp_all [isAtomic, Kind.isTarget]
  | cons u us => simp [isAtomic, (Kind.isLeaf_not_open h).1] at ha

theorem phraseTokens_eq_nil (h : phraseTokens ps = []) : ps = [] := by
  cases ps with
  | nil => rfl
  | cons p ps => simp [phraseTokens, Phrase.tokens_ne_nil] at h

/-- **Tokens that are one thing for a quantifier are a single phrase that can be repeated.** -/
theorem exists_target_of_isAtomic (h : AllWellFormed ps) (ha : isAtomic (phraseTokens ps) = true) :
    ∃ p, ps = [p] ∧ p.isTarget := by
  cases ps with
  | nil => exact absurd ha (by simp [phraseTokens, isAtomic])
  | cons p ps =>
    rw [AllWellFormed] at h
    rw [phraseTokens] at ha
    cases p with
    | leaf t =>
      obtain ⟨hnil, ht⟩ := isAtomic_leaf (by simpa [Phrase.WellFormed] using h.1) _ ha
      exact ⟨.leaf t, by rw [phraseTokens_eq_nil hnil], ht⟩
    | group opener body =>
      obtain ⟨hnil, ho⟩ := isAtomic_group h.1 _ ha
      exact ⟨.group opener body, by rw [phraseTokens_eq_nil hnil],
        by simpa [Phrase.isTarget] using ho⟩
    | repeated body q =>
      -- the quantifier is something after its target
      rw [Phrase.WellFormed] at h
      rw [Phrase.tokens, List.append_assoc] at ha
      cases body with
      | leaf t =>
        exact absurd (isAtomic_leaf (by simpa [Phrase.WellFormed] using h.1.1) _ ha).1 (by simp)
      | group opener inner => exact absurd (isAtomic_group h.1.1 _ ha).1 (by simp)
      | repeated _ _ => exact absurd h.1.2.1 (by simp [Phrase.isTarget])

end Diglot.Emitted
