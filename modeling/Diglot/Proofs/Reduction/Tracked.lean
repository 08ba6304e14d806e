import Diglot.Proofs.Emitted.ReadBack
import Diglot.Proofs.Reduction.Origins
import Diglot.Proofs.Reduction.Possessive
import Diglot.Reduction.Host

/-!
# Drafts on the way to the host

A draft is tracked if its text is that of coherent phrases and its layout says where the captures of
the phrases come from. Each of the three reductions succeeds on a tracked draft whose text can be
scanned, and the result is tracked again. The visible captures and their names stay as they are.
-/

namespace Diglot.Reduction

open Emitted

variable {os : List Origin} {ts : List Token} {ps region : List Phrase} {marker : Token}
  {r : Recursion} {depth : Nat}

/-- The draft is the text of coherent phrases, and its layout says that their captures come from
where `os` says. The source has `n` groups, and the visible captures have the names in `marks`. -/
structure Tracked (n : Nat) (marks : List (Origin × Option (List Char))) (d : Draft)
    (ps : List Phrase) (os : List Origin) : Prop where
  text : d.text = textOf (phraseTokens ps)
  coherent : Coherent ps
  length : os.length = captureCount (phraseTokens ps)
  source : OfSource n os
  describes : Describes d.layout os
  marks : groupMarks os ((phraseTokens ps).filterMap (·.captureName?)) = marks

/-- Either there is no recursion marker, or there is one with the depth `depth`, and it is inside
the region that it names. -/
def RecursesInside (depth : Nat) (ps : List Phrase) : Prop :=
  (phraseTokens ps).filter (·.kind.isMarker) = [] ∨
    ∃ marker region r, Cut ps marker region r ∧ FindsRegion ps marker r ∧ r.depth = depth

/-- Where the captures of a pattern come from when its recursion is unrolled. -/
def unrollOrigins (os : List Origin) (tokens : List Token) : List Origin :=
  match tokens.zipIdx.filter (·.1.kind.isMarker) with
  | [(t, marker)] =>
    match Recursion.of tokens marker t.kind with
    | .ok r => r.origins os
    | .error _ => os
  | _ => os

theorem unrollOrigins_of_no_marker (h : ts.filter (·.kind.isMarker) = []) :
    unrollOrigins os ts = os := by
  rw [unrollOrigins, filter_zipIdx_eq_nil h]

theorem Cut.unrollOrigins_eq (h : Cut ps marker region r) (hr : FindsRegion ps marker r)
    (hd : 1 ≤ r.depth) (os : List Origin) :
    unrollOrigins os (phraseTokens ps) = r.order.map (originOf os) := by
  rw [unrollOrigins, h.filter_zipIdx]
  dsimp only
  rw [h.recursionOf hr hd, h.map_originOf_order]

theorem added_not_mem_unrollOrigins (hd : 1 ≤ depth) (hr : RecursesInside depth ps)
    (hlength : os.length = captureCount (phraseTokens ps)) (h : .added ∉ os) :
    .added ∉ unrollOrigins os (phraseTokens ps) := by
  rcases hr with hnone | ⟨marker, region, r, hcut, hfinds, rfl⟩
  · rwa [unrollOrigins_of_no_marker hnone]
  · rw [hcut.unrollOrigins_eq hfinds hd]
    intro hmem
    obtain ⟨key, hkey, horigin⟩ := List.mem_map.1 hmem
    obtain ⟨i, c, rfl, -⟩ := hcut.mem_order.1 hkey
    -- the capture that is kept or copied is one of the old ones
    have hbounds := hcut.reorders_order.bounded i c hkey
    have hget : os.getD (i - 1) .added ∈ os := by
      rw [List.getD_eq_getElem?_getD, List.getElem?_eq_getElem (by omega), Option.getD_some]
      exact List.getElem_mem _
    have hadded : ∀ o : Origin, o.copied = .added → o = .added := by
      intro o ho
      cases o <;> first | rfl | cases ho
    cases c with
    | zero => exact h (horigin ▸ hget)
    | succ c => exact h (hadded _ horigin ▸ hget)

theorem unfoldOrigins_of_no_atomic (h : ts.any (·.kind == .atomicOpen) = false)
    (hlength : os.length = captureCount ts) : unfoldOrigins os ts = os := by
  induction ts generalizing os with
  | nil => rw [unfoldOrigins, List.length_eq_zero_iff.1 hlength]
  | cons t ts ih =>
    rw [List.any_cons, Bool.or_eq_false_iff] at h
    rw [captureCount_cons] at hlength
    unfold unfoldOrigins
    split
    next name hk =>
      rw [Token.captureName?, hk] at hlength
      simp only [Option.isSome_some, if_true] at hlength
      rw [ih h.2 (by rw [List.length_drop]; omega), List.take_append_drop]
    next hk => simp [hk] at h
    next hc ha =>
      rw [captureName?_eq_none hc] at hlength
      simp only [Option.isSome_none, Bool.false_eq_true, if_false, Nat.zero_add] at hlength
      exact ih h.2 hlength

/-- How many captures are added for atomic groups. -/
theorem count_added_unfoldOrigins (h : .added ∉ os) :
    (unfoldOrigins os ts).count .added = ts.countP (·.kind == .atomicOpen) := by
  induction ts generalizing os with
  | nil => rfl
  | cons t ts ih =>
    unfold unfoldOrigins
    split
    next name hk =>
      have hfirst : (os.take 1).count .added = 0 :=
        List.count_eq_zero.2 fun hmem => h (List.mem_of_mem_take hmem)
      rw [List.count_append, hfirst, ih fun hmem => h (List.mem_of_mem_drop hmem),
        List.countP_cons_of_neg (by simp [hk]), Nat.zero_add]
    next hk =>
      rw [List.count_cons_self, ih h, List.countP_cons_of_pos (by simp [hk])]
    next hc ha => rw [ih h, List.countP_cons_of_neg (by simpa using ha)]

namespace Tracked

variable {n : Nat} {marks : List (Origin × Option (List Char))} {d : Draft}

section

variable (h : Tracked n marks d ps os)

include h

/-- Whenever the text can be scanned, the scan gives the tokens of the phrases. -/
theorem scan_eq (hs : scan d.text = .ok ts) : scan d.text = .ok (phraseTokens ps) := by
  have hts := hs
  rw [h.text] at hts
  rw [hs, h.coherent.legible.eq_of_scan hts]

/-- The text can be scanned if the numbers of its captures fit into 64 bits. -/
theorem scan_of_lt (hc : captureCount (phraseTokens ps) < 2 ^ 64) :
    scan d.text = .ok (phraseTokens ps) := by
  rw [h.text]
  refine h.coherent.legible.scan fun t ht i hi => ?_
  exact Nat.lt_of_le_of_lt (h.coherent.reference ht hi).2 hc

theorem captureCount_le_length : captureCount (phraseTokens ps) ≤ d.text.length := by
  rw [h.text]
  exact Nat.le_trans (List.length_filterMap_le _ _) (length_le_textOf h.coherent.legible.regular)

/-! ## The reductions -/

/-- An unrolled draft is tracked. -/
theorem unroll_cut (hcut : Cut ps marker region r) :
    Tracked n marks (r.unroll d.layout) (r.unrolled region ps) (r.order.map (originOf os)) := by
  have hw := h.coherent.legible.wellFormed
  have htitles : (phraseTokens (r.unrolled region ps)).filterMap (·.captureName?)
      = r.order.map (titleOf ((phraseTokens ps).filterMap (·.captureName?))) := by
    rw [(hcut.spelled_pieces hw).titles_eq, hcut.titled_pieces.titles_eq]
    rfl
  exact {
    text := hcut.text_unroll h.coherent d.layout
    coherent := hcut.coherent_unrolled h.coherent
    length := by rw [List.length_map, hcut.captureCount_unrolled hw]
    source := h.source.reordered hcut.reorders_order h.length
    describes := hcut.describes_unroll h.describes h.source h.length
    marks := by
      rw [htitles, groupMarks_reordered hcut.reorders_order h.length rfl, h.marks] }

/-- **Recursion is unrolled.** -/
theorem unroll (hs : scan d.text = .ok (phraseTokens ps)) (hd : 1 ≤ depth)
    (hr : RecursesInside depth ps) :
    ∃ d' ps', unrollRecursion d = .ok d' ∧
      Tracked n marks d' ps' (unrollOrigins os (phraseTokens ps)) ∧
      (∀ t ∈ phraseTokens ps', t.kind.isMarker = false) ∧
      hostCaptureCount (phraseTokens ps') ≤ depth * hostCaptureCount (phraseTokens ps) := by
  rcases hr with hnone | ⟨marker, region, r, hcut, hfinds, rfl⟩
  · refine ⟨d, ps, unrollRecursion_of_no_marker hs hnone, ?_, fun t ht => ?_, ?_⟩
    · rwa [unrollOrigins_of_no_marker hnone]
    · simpa using List.filter_eq_nil_iff.1 hnone t ht
    · exact Nat.le_mul_of_pos_left _ hd
  · have hw := h.coherent.legible.wellFormed
    refine ⟨r.unroll d.layout, r.unrolled region ps, hcut.unrollRecursion_eq hfinds hd hs, ?_,
      hcut.isMarker_unrolled hw, hcut.hostCaptureCount_unrolled_le hw hd⟩
    rw [hcut.unrollOrigins_eq hfinds hd]
    exact h.unroll_cut hcut

/-- **Possessive quantifiers become atomic groups.** -/
theorem possess (hs : scan d.text = .ok (phraseTokens ps)) :
    ∃ d', groupPossessive d = .ok d' ∧ Tracked n marks d' (possessAll ps) os := by
  have htitles := titles_possessAll h.coherent.legible
  refine ⟨_, groupPossessive_eq h.coherent.legible.wellFormed h.text hs, ?_⟩
  exact {
    text := rfl
    coherent := coherent_possessAll h.coherent
    length := by rw [captureCount, htitles]; exact h.length
    source := h.source
    describes := h.describes
    marks := by rw [htitles, h.marks] }

/-- An unfolded draft is tracked. -/
theorem unfold_all :
    Tracked n marks ⟨textOf (phraseTokens (unfolded ps)),
        hideAdded (unfoldedOrder ps) (carryOver (unfoldedOrder ps) d.layout)⟩
      (unfolded ps) ((unfoldedOrder ps).map (originOf os)) := by
  have hw := h.coherent.legible.wellFormed
  have hreorders : Reorders (captureCount (phraseTokens ps)) (unfoldedOrder ps) :=
    reorders_unfoldKeys (phraseTokens ps)
  exact {
    text := rfl
    coherent := coherent_unfolded h.coherent
    length := by rw [List.length_map, captureCount_unfolded hw]
    source := h.source.reordered hreorders h.length
    describes := describes_unfolded h.describes h.length
    marks := by rw [titles_unfolded hw, groupMarks_reordered hreorders h.length rfl, h.marks] }

/-- **Atomic groups become look aheads with references.** -/
theorem unfold (hs : scan d.text = .ok (phraseTokens ps))
    (hp : ∀ t ∈ phraseTokens ps, t.kind ≠ .quantifier true)
    (hm : ∀ t ∈ phraseTokens ps, t.kind.isMarker = false) :
    ∃ d' ps', unfoldAtomic d = .ok d' ∧
      Tracked n marks d' ps' (unfoldOrigins os (phraseTokens ps)) ∧
      ∀ t ∈ phraseTokens ps', IsHostToken t := by
  cases ha : (phraseTokens ps).any (·.kind == .atomicOpen) with
  | false =>
    refine ⟨d, ps, unfoldAtomic_of_no_atomic hs ha, ?_, fun t ht => ⟨?_, hp t ht, hm t ht⟩⟩
    · rwa [unfoldOrigins_of_no_atomic ha h.length]
    · simpa using List.any_eq_false.1 ha t ht
  | true =>
    have hw := h.coherent.legible.wellFormed
    have horigins : unfoldOrigins os (phraseTokens ps) = (unfoldedOrder ps).map (originOf os) :=
      (map_originOf_unfoldKeys (c := 0) (by rw [h.length, Nat.zero_add])).symm
    refine ⟨_, unfolded ps, unfoldAtomic_eq h.coherent hs ha, ?_, isHost_unfolded hw hp hm⟩
    rw [horigins]
    exact h.unfold_all

end

end Tracked

end Diglot.Reduction
