import Diglot.Options
import Diglot.Proofs.Reduction.WrittenLayout

/-!
# The reduction ends in host syntax

A written pattern is a tracked draft whose recursion marker, if it has one, stands inside the region
that it names. So the reduction cannot fail, its result is balanced and has none of the extensions,
and to reduce it once more changes nothing.
-/

namespace Diglot.Reduction

open Emitted Core

variable {t : Token} {ps : List Phrase} {ts : List Token}

/-! ## Balanced tokens -/

/-- How many groups are open after tokens, `depth` groups being open before them. There may be no
group to close. -/
def openDepth? : Nat → List Token → Option Nat
  | depth, [] => some depth
  | depth, t :: ts =>
    if t.kind.isOpen then openDepth? (depth + 1) ts
    else if t.kind = .close then
      match depth with
      | 0 => none
      | depth + 1 => openDepth? depth ts
    else openDepth? depth ts

/-- Every group that opens is closed, and no other. -/
def Balanced (ts : List Token) : Prop :=
  openDepth? 0 ts = some 0

theorem openDepth?_open (h : t.kind.isOpen) (depth : Nat) (ts : List Token) :
    openDepth? depth (t :: ts) = openDepth? (depth + 1) ts := by
  rw [openDepth?.eq_def]
  exact if_pos h

theorem openDepth?_close (h : t.kind = .close) (depth : Nat) (ts : List Token) :
    openDepth? (depth + 1) (t :: ts) = openDepth? depth ts := by
  have ho : t.kind.isOpen = false := by rw [h]; rfl
  rw [openDepth?.eq_def]
  exact (if_neg (by simp [ho])).trans (if_pos h)

theorem openDepth?_other (ho : t.kind.isOpen = false) (hc : t.kind ≠ .close) (depth : Nat)
    (ts : List Token) : openDepth? depth (t :: ts) = openDepth? depth ts := by
  rw [openDepth?.eq_def]
  exact (if_neg (by simp [ho])).trans (if_neg hc)

theorem openDepth?_balanced (h : Emitted.Balanced ts) (depth : Nat) (rest : List Token) :
    openDepth? depth (ts ++ rest) = openDepth? depth rest := by
  induction h generalizing depth rest with
  | nil => rfl
  | plain ho hc _ ih => rw [List.cons_append, openDepth?_other ho hc, ih]
  | group ho hc _ _ ihbody ihrest =>
    rw [List.cons_append, openDepth?_open ho, List.append_assoc, ihbody, List.cons_append,
      openDepth?_close hc, ihrest]

theorem balanced_of_emitted (h : Emitted.Balanced ts) : Balanced ts := by
  simpa [Balanced, openDepth?] using openDepth?_balanced h 0 []

/-! ## Quantifiers and what they repeat -/

/-- The token at index `i` follows a character, a reference, a marker, or the end of a group that
is no look around. -/
def FollowsTarget (ts : List Token) (i : Nat) : Prop :=
  ∃ j t, i = j + 1 ∧ ts[j]? = some t ∧
    (t.kind.isTarget ∨ t.kind = .close ∧
      ∃ k opener, matchingOpen ts j = some k ∧ ts[k]? = some opener ∧ opener.kind ≠ .lookOpen)

theorem followsTarget_target {p : Phrase} (hw : p.WellFormed) (ht : p.isTarget)
    (before after : List Token) :
    FollowsTarget (before ++ (p.tokens ++ after)) (before.length + p.tokens.length) := by
  cases p with
  | leaf t => exact ⟨before.length, t, rfl, by simp [Phrase.tokens], .inl ht⟩
  | group opener body =>
    refine ⟨before.length + (phraseTokens body).length + 1, closeToken, ?_, ?_, .inr ⟨rfl,
      before.length, opener, matchingOpen_group hw before after, ?_, by simpa [Phrase.isTarget] using ht⟩⟩
    · simp only [Phrase.tokens, List.length_cons, List.length_append, List.length_nil]
      omega
    · rw [List.getElem?_append_right (by omega), Phrase.tokens]
      simp [Nat.add_assoc]
    · simp [Phrase.tokens]
  | repeated body q => simp [Phrase.isTarget] at ht

/-- Quantifiers in well-formed phrases have something to repeat. -/
theorem followsTarget_phraseTokens (ps : List Phrase) (h : AllWellFormed ps)
    (before after : List Token) (i : Nat) (q : Token) (hi : (phraseTokens ps)[i]? = some q)
    (hq : q.kind.isQuantifier) :
    FollowsTarget (before ++ (phraseTokens ps ++ after)) (before.length + i) := by
  induction ps, h using AllWellFormed.induction generalizing before after i with
  | nil => simp [phraseTokens] at hi
  | cons p ps _ _ _ ihp ihps =>
    rw [phraseTokens_singleton] at ihp
    rw [phraseTokens] at hi ⊢
    rw [List.append_assoc]
    by_cases hlt : i < p.tokens.length
    · rw [List.getElem?_append_left hlt] at hi
      exact ihp before (phraseTokens ps ++ after) i hi
    · rw [List.getElem?_append_right (by omega)] at hi
      have hrest := ihps (before ++ p.tokens) after _ hi
      rwa [List.length_append, Nat.add_assoc, Nat.add_sub_cancel' (Nat.le_of_not_lt hlt),
        List.append_assoc] at hrest
  | leaf t _ ht =>
    have hmem := List.mem_of_getElem? hi
    rw [phraseTokens_singleton, Phrase.tokens, List.mem_singleton] at hmem
    cases hk : t.kind <;> simp_all [Kind.isLeaf, Kind.isQuantifier]
  | group opener body _ _ ho ih =>
    rw [phraseTokens_singleton, Phrase.tokens] at hi ⊢
    cases i with
    | zero =>
      rw [List.getElem?_cons_zero] at hi
      cases hi
      cases hk : q.kind <;> simp_all [Kind.isOpen, Kind.isQuantifier]
    | succ i =>
      rw [List.getElem?_cons_succ] at hi
      -- the quantifier is in the body, since the last token closes the group
      have hlt : i < (phraseTokens body).length := by
        by_contra hge
        rw [List.getElem?_append_right (by omega)] at hi
        rw [List.mem_singleton.1 (List.mem_of_getElem? hi)] at hq
        exact absurd hq (by decide)
      rw [List.getElem?_append_left hlt] at hi
      have hbody := ih (before ++ [opener]) (closeToken :: after) i hi
      rw [List.length_append, List.length_singleton, Nat.add_assoc, Nat.add_comm 1 i] at hbody
      simpa using hbody
  | repeated body q' _ hb htarget _ ih =>
    rw [phraseTokens_singleton] at ih hi ⊢
    rw [Phrase.tokens] at hi ⊢
    rw [List.append_assoc]
    by_cases hlt : i < body.tokens.length
    · rw [List.getElem?_append_left hlt] at hi
      exact ih before ([q'] ++ after) i hi
    · have hlast : i = body.tokens.length := by
        have hbound := (List.getElem?_eq_some_iff.1 hi).1
        rw [List.length_append, List.length_singleton] at hbound
        omega
      rw [hlast]
      exact followsTarget_target (allWellFormed_singleton.1 hb) htarget before ([q'] ++ after)

/-- The tokens of a pattern that the host can read: no extension is left, groups are balanced, and
every quantifier repeats a character, a reference or a group that is no look around. -/
structure IsHostSyntax (ts : List Token) : Prop where
  balanced : Balanced ts
  isHost : ∀ t ∈ ts, IsHostToken t
  quantified : ∀ i q, ts[i]? = some q → q.kind.isQuantifier → ∃ j t, i = j + 1 ∧ ts[j]? = some t ∧
    (t.kind = .atom ∨ (∃ n, t.kind = .backreference n) ∨ t.kind = .close ∧
      ∃ k opener, matchingOpen ts j = some k ∧ ts[k]? = some opener ∧ opener.kind ≠ .lookOpen)

theorem isHostSyntax_phraseTokens (hw : AllWellFormed ps)
    (hh : ∀ t ∈ phraseTokens ps, IsHostToken t) : IsHostSyntax (phraseTokens ps) where
  balanced := balanced_of_emitted (balanced_phraseTokens ps hw)
  isHost := hh
  quantified i q hi hq := by
    have hfollows := followsTarget_phraseTokens ps hw [] [] i q hi hq
    rw [List.nil_append, List.append_nil, List.length_nil, Nat.zero_add] at hfollows
    obtain ⟨j, t, hj, ht, hkind⟩ := hfollows
    refine ⟨j, t, hj, ht, ?_⟩
    rcases hkind with htarget | hclose
    · have hmarker := (hh t (List.mem_of_getElem? ht)).2.2
      cases hk : t.kind <;> simp_all [Kind.isTarget, Kind.isMarker]
    · exact .inr (.inr hclose)

/-! ## Reducing tracked drafts -/

/-- A draft without extensions stays as it is. -/
theorem toHost_of_isHost {d : Draft} (hs : scan d.text = .ok ts) (hh : ∀ t ∈ ts, IsHostToken t) :
    toHost d = .ok d := by
  have hmarker : ts.filter (·.kind.isMarker) = [] :=
    List.filter_eq_nil_iff.2 fun t ht => by simp [(hh t ht).2.2]
  have hatomic : ts.any (·.kind == .atomicOpen) = false :=
    List.any_eq_false.2 fun t ht => by simpa using (hh t ht).1
  have hpossess : groupPossessive d = .ok d :=
    groupPossessive_of_not_possessive hs fun t ht => by simpa [isPossessive] using (hh t ht).2.1
  rw [toHost, unrollRecursion_of_no_marker hs hmarker]
  show (do let p ← groupPossessive d; _) = _
  rw [hpossess]
  exact unfoldAtomic_of_no_atomic hs hatomic

/-- What becomes of the tokens when possessive quantifiers become atomic groups. -/
theorem counts_possessAll (hw : AllWellFormed ps) (hw' : AllWellFormed (possessAll ps)) :
    hostCaptureCount (phraseTokens (possessAll ps)) = hostCaptureCount (phraseTokens ps) ∧
    (∀ t ∈ phraseTokens (possessAll ps), t.kind ≠ .quantifier true) ∧
    ((∀ t ∈ phraseTokens ps, t.kind.isMarker = false) →
      ∀ t ∈ phraseTokens (possessAll ps), t.kind.isMarker = false) := by
  have hcounts := counts_tallyAll ps hw
  have hcounts' := counts_tallyAll (possessAll ps) hw'
  rw [tallyAll_possessAll] at hcounts'
  refine ⟨?_, fun t ht => ?_, fun hmarkers t ht => ?_⟩
  · rw [hostCaptureCount_eq, hostCaptureCount_eq, captureCount, captureCount, ← hcounts'.titles,
      ← hcounts.titles, ← hcounts'.atomics, ← hcounts.atomics, ← hcounts'.possessives,
      ← hcounts.possessives]
    simp only [possessTally]
    omega
  · simpa using List.countP_eq_zero.1 hcounts'.possessives.symm t ht
  · have hnone : (phraseTokens ps).filter (·.kind.isMarker) = [] :=
      List.filter_eq_nil_iff.2 fun t ht => by simp [hmarkers t ht]
    have hkinds := hcounts'.markers.symm.trans hcounts.markers
    rw [hnone, List.map_nil, List.map_eq_nil_iff, List.filter_eq_nil_iff] at hkinds
    simpa using hkinds t ht

theorem length_unfoldOrigins {os : List Origin} (h : os.length = captureCount ts) :
    (unfoldOrigins os ts).length ≤ hostCaptureCount ts := by
  have hsplit : (unfoldOrigins os ts).length
      = captureCount ts + ts.countP (·.kind == .atomicOpen) := by
    induction ts generalizing os with
    | nil => rfl
    | cons t ts ih =>
      rw [captureCount_cons] at h ⊢
      unfold unfoldOrigins
      split
      next name hk =>
        rw [Token.captureName?, hk] at h ⊢
        simp only [Option.isSome_some, if_true] at h ⊢
        rw [List.length_append, List.length_take, ih (by rw [List.length_drop]; omega),
          List.countP_cons_of_neg (by simp [hk])]
        omega
      next hk =>
        rw [Token.captureName?, hk] at h ⊢
        simp only [Option.isSome_none, Bool.false_eq_true, if_false, Nat.zero_add] at h ⊢
        rw [List.length_cons, ih h, List.countP_cons_of_pos (by simp [hk])]
        omega
      next hc ha =>
        rw [captureName?_eq_none hc] at h ⊢
        simp only [Option.isSome_none, Bool.false_eq_true, if_false, Nat.zero_add] at h ⊢
        rw [ih h, List.countP_cons_of_neg (by simpa using ha)]
  rw [hsplit, hostCaptureCount_eq]
  omega

namespace Tracked

variable {n : Nat} {marks : List (Origin × Option (List Char))} {d : Draft} {os : List Origin}

/-- **The reduction of a tracked draft does not fail**, if there are not more captures than the host
can number. -/
theorem exists_toHost (h : Tracked n marks d ps os) {depth : Nat} (hd : 1 ≤ depth)
    (hr : RecursesInside depth ps) (hsize : depth * hostCaptureCount (phraseTokens ps) < 2 ^ 64) :
    ∃ d' ps' os', toHost d = .ok d' ∧ Tracked n marks d' ps' os' ∧
      scan d'.text = .ok (phraseTokens ps') ∧ ∀ t ∈ phraseTokens ps', IsHostToken t := by
  have hle : hostCaptureCount (phraseTokens ps) ≤ depth * hostCaptureCount (phraseTokens ps) :=
    Nat.le_mul_of_pos_left _ hd
  have hs := h.scan_of_lt (by have := captureCount_le (phraseTokens ps); omega)
  obtain ⟨d₁, ps₁, hunroll, h₁, hmarkers, hcount⟩ := h.unroll hs hd hr
  have hs₁ := h₁.scan_of_lt (by have := captureCount_le (phraseTokens ps₁); omega)
  obtain ⟨d₂, hpossess, h₂⟩ := h₁.possess hs₁
  obtain ⟨hhost, hgreedy, hkinds⟩ :=
    counts_possessAll h₁.coherent.legible.wellFormed h₂.coherent.legible.wellFormed
  have hs₂ := h₂.scan_of_lt (by
    have := captureCount_le (phraseTokens (possessAll ps₁))
    omega)
  obtain ⟨d₃, ps₃, hunfold, h₃, hisHost⟩ := h₂.unfold hs₂ hgreedy (hkinds hmarkers)
  refine ⟨d₃, ps₃, _, ?_, h₃, h₃.scan_of_lt ?_, hisHost⟩
  · rw [toHost, hunroll]
    show (do let p ← groupPossessive d₁; _) = _
    rw [hpossess]
    exact hunfold
  · have hlength := length_unfoldOrigins h₂.length
    rw [h₃.length] at hlength
    omega

end Tracked

/-! ## Reducing written patterns -/

/-- **A written pattern can be reduced to host syntax.** The reduction does not fail, its result can
be scanned, the tokens are balanced and without extensions, their quantifiers have something to
repeat, and to reduce the result again changes nothing. An index of the reduced text has to fit into
64 bits, and the text grows at most by the recursion limit. -/
theorem toHost_written {ro : Source.ReadOptions} {text : List Char} {source : Source.Pattern}
    {lo : LowerOptions} {core : Core.Pattern} {o : WriteOptions} {written : Written}
    (hread : Source.Pattern.read ro text = .ok source) (hnames : source.root.keeps .unbracketed)
    (hlower : Core.Pattern.lower lo source = .ok core)
    (hwrite : writePattern o core.root = .ok written)
    (hleast : leastRecursionLimit ≤ o.recursionLimit)
    (hgreatest : o.recursionLimit ≤ greatestRecursionLimit)
    (hsize : o.recursionLimit * written.text.length < 2 ^ 64) :
    ∃ d tokens, toHost ⟨written.text, written.layout⟩ = .ok d ∧ scan d.text = .ok tokens ∧
      IsHostSyntax tokens ∧ toHost d = .ok d := by
  obtain ⟨_, hlowered⟩ := lowered_of_read hread hnames hlower
  have hlimit : o.recursionLimit < 2 ^ 32 := Nat.lt_of_le_of_lt hgreatest (by decide)
  have hpos : 1 ≤ o.recursionLimit := Nat.le_trans (by decide) hleast
  obtain ⟨⟨ps, hps⟩, hlayout⟩ := exists_writtenAs hlowered.plain hlimit hwrite
  have hcount : hostCaptureCount (phraseTokens ps) ≤ written.text.length := by
    refine Nat.le_trans List.countP_le_length ?_
    rw [hps.text]
    exact length_le_textOf hps.legible.regular
  have hbound : o.recursionLimit * hostCaptureCount (phraseTokens ps) < 2 ^ 64 :=
    Nat.lt_of_le_of_lt (Nat.mul_le_mul_left _ hcount) hsize
  have hcaptures : captureCount (phraseTokens ps) < 2 ^ 64 := by
    have hle := captureCount_le (phraseTokens ps)
    have hgrow := Nat.le_mul_of_pos_left (hostCaptureCount (phraseTokens ps)) hpos
    omega
  obtain ⟨d, ps', _, hhost, htracked, hscan, hisHost⟩ :=
    (tracked_written hlowered hps).exists_toHost hpos
      (recursesInside_written hlowered hps hcaptures) hbound
  refine ⟨d, phraseTokens ps', by rw [hlayout]; exact hhost, hscan, ?_,
    toHost_of_isHost hscan hisHost⟩
  exact isHostSyntax_phraseTokens htracked.coherent.legible.wellFormed hisHost

/-- A pattern that recurses into a group, with a subroutine call, an atomic group and a possessive
quantifier. -/
theorem toHost_written_example : ∃ source core written,
    Source.Pattern.read {} "(?<n>a(?<m>b++)\\g<n>?)(?>c\\g<m>|d)".toList = .ok source ∧
    Core.Pattern.lower {} source = .ok core ∧ writePattern {} core.root = .ok written ∧
    ∃ d tokens, toHost ⟨written.text, written.layout⟩ = .ok d ∧ scan d.text = .ok tokens ∧
      IsHostSyntax tokens ∧ toHost d = .ok d := by
  obtain ⟨source, hread, hplain, core, hlower, written, hwrite, hlength⟩ : ∃ source,
      Source.Pattern.read {} "(?<n>a(?<m>b++)\\g<n>?)(?>c\\g<m>|d)".toList = .ok source ∧
      source.root.keeps .unbracketed ∧ ∃ core, Core.Pattern.lower {} source = .ok core ∧
      ∃ written, writePattern {} core.root = .ok written ∧ 20 * written.text.length < 2 ^ 64 := by
    decide +kernel
  exact ⟨source, core, written, hread, hlower, hwrite, toHost_written hread hplain hlower hwrite
    (by decide) (by decide) hlength⟩

end Diglot.Reduction
