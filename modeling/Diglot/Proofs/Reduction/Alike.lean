import Diglot.Proofs.Reduction.HostSyntax
import Diglot.Proofs.Reduction.Landmarks

/-!
# Reducing patterns with the same landmarks

Two drafts with the same landmarks and the same layout are reduced side by side. If one of them can
be reduced, so can the other, and the results have the same layout and the same capture names.
-/

namespace Diglot.Reduction

open Emitted

/-- No capture is lost when captures are reordered. -/
theorem Reorders.le_length {count : Nat} {order : List CaptureKey} (h : Reorders count order) :
    count ≤ order.length := by
  have hkept := congrArg List.length h.kept
  rw [List.length_map, List.length_range'] at hkept
  rw [← hkept]
  exact List.length_filter_le _ _

/-- Two tracked drafts with the same landmarks and the same layout. -/
structure Twins (d d' : Draft) (ps qs : List Phrase) : Prop where
  first : ∃ n marks os, Tracked n marks d ps os
  second : ∃ n marks os, Tracked n marks d' qs os
  landmarks : landmarksAll qs = landmarksAll ps
  layout : d'.layout = d.layout

namespace Twins

variable {d d' : Draft} {ps qs : List Phrase}

section

variable (h : Twins d d' ps qs)

include h

theorem wellFormed : AllWellFormed ps ∧ AllWellFormed qs := by
  obtain ⟨_, _, _, hp⟩ := h.first
  obtain ⟨_, _, _, hq⟩ := h.second
  exact ⟨hp.coherent.legible.wellFormed, hq.coherent.legible.wellFormed⟩

theorem titles_eq : (phraseTokens qs).filterMap (·.captureName?)
    = (phraseTokens ps).filterMap (·.captureName?) := by
  rw [← titles_landmarksAll h.wellFormed.1, ← titles_landmarksAll h.wellFormed.2, h.landmarks]

theorem captureCount_eq : captureCount (phraseTokens qs) = captureCount (phraseTokens ps) := by
  rw [captureCount, captureCount, h.titles_eq]

/-- The markers are the same. -/
theorem markers_eq :
    ((phraseTokens qs).filter (·.kind.isMarker)).map (·.kind)
      = ((phraseTokens ps).filter (·.kind.isMarker)).map (·.kind) := by
  rw [← markers_landmarksAll h.wellFormed.1, ← markers_landmarksAll h.wellFormed.2, h.landmarks]

theorem scan_first {ts : List Token} (hs : scan d.text = .ok ts) :
    scan d.text = .ok (phraseTokens ps) := by
  obtain ⟨_, _, _, hp⟩ := h.first
  exact hp.scan_eq hs

theorem scan_second (hc : captureCount (phraseTokens ps) < 2 ^ 64) :
    scan d'.text = .ok (phraseTokens qs) := by
  obtain ⟨_, _, _, hq⟩ := h.second
  exact hq.scan_of_lt (by rwa [h.captureCount_eq])

/-! ## One reduction after the other -/

/-- **Recursion is unrolled alike.** -/
theorem unroll (hs : scan d.text = .ok (phraseTokens ps))
    (hs' : scan d'.text = .ok (phraseTokens qs)) {depth : Nat} (hd : 1 ≤ depth)
    (hr : RecursesInside depth ps) (hr' : RecursesInside depth qs)
    (hk : ∀ t ∈ phraseTokens ps, ∀ s k, t.kind ≠ .groupRecursion (.name s) k) :
    ∃ e e' ps₁ qs₁, unrollRecursion d = .ok e ∧ unrollRecursion d' = .ok e' ∧
      Twins e e' ps₁ qs₁ ∧ captureCount (phraseTokens ps) ≤ captureCount (phraseTokens ps₁) := by
  obtain ⟨n, marks, os, hp⟩ := h.first
  obtain ⟨n', marks', os', hq⟩ := h.second
  have hmarkers := h.markers_eq
  rcases hr with hnone | ⟨marker, region, r, hcut, hfinds, rfl⟩
  · -- without a marker both drafts stay as they are
    rw [hnone, List.map_nil, List.map_eq_nil_iff] at hmarkers
    exact ⟨d, d', ps, qs, unrollRecursion_of_no_marker hs hnone,
      unrollRecursion_of_no_marker hs' hmarkers, h, Nat.le_refl _⟩
  · rcases hr' with hnone' | ⟨marker', region', r', hcut', hfinds', hdepth⟩
    · rw [hnone', hcut.unique] at hmarkers
      cases hmarkers
    · have hmem : marker ∈ phraseTokens ps := by
        have hmem : marker ∈ (phraseTokens ps).filter (·.kind.isMarker) := by simp [hcut.unique]
        exact (List.mem_filter.1 hmem).1
      obtain ⟨horder, hcopies, hlandmarks⟩ := hcut.unrolled_alike hcut' hfinds hfinds'
        h.wellFormed.1 h.wellFormed.2 h.landmarks (hk marker hmem)
      refine ⟨r.unroll d.layout, r'.unroll d'.layout, r.unrolled region ps, r'.unrolled region' qs,
        hcut.unrollRecursion_eq hfinds hd hs,
        hcut'.unrollRecursion_eq hfinds' (by rwa [hdepth]) hs',
        ⟨⟨n, marks, _, hp.unroll_cut hcut⟩, ⟨n', marks', _, hq.unroll_cut hcut'⟩, hlandmarks, ?_⟩, ?_⟩
      · rw [Recursion.order, Recursion.order] at horder
        simp only [Recursion.unroll, horder, hcopies, h.layout]
      · rw [hcut.captureCount_unrolled h.wellFormed.1]
        exact hcut.reorders_order.le_length

/-- **Possessive quantifiers are grouped alike.** -/
theorem possess (hs : scan d.text = .ok (phraseTokens ps))
    (hs' : scan d'.text = .ok (phraseTokens qs)) :
    ∃ e e', groupPossessive d = .ok e ∧ groupPossessive d' = .ok e' ∧
      Twins e e' (possessAll ps) (possessAll qs) := by
  obtain ⟨n, marks, os, hp⟩ := h.first
  obtain ⟨n', marks', os', hq⟩ := h.second
  obtain ⟨e, he, hpe⟩ := hp.possess hs
  obtain ⟨e', he', hqe⟩ := hq.possess hs'
  refine ⟨e, e', he, he', ⟨n, marks, os, hpe⟩, ⟨n', marks', os', hqe⟩, ?_, ?_⟩
  · rw [landmarksAll_possessAll, landmarksAll_possessAll, h.landmarks]
  · rw [groupPossessive_eq h.wellFormed.1 hp.text hs] at he
    rw [groupPossessive_eq h.wellFormed.2 hq.text hs'] at he'
    cases he
    cases he'
    exact h.layout

/-- **Atomic groups are unfolded alike.** -/
theorem unfold (hs : scan d.text = .ok (phraseTokens ps))
    (hs' : scan d'.text = .ok (phraseTokens qs))
    (hp : ∀ t ∈ phraseTokens ps, t.kind ≠ .quantifier true)
    (hq : ∀ t ∈ phraseTokens qs, t.kind ≠ .quantifier true) :
    ∃ e e' ps' qs', unfoldAtomic d = .ok e ∧ unfoldAtomic d' = .ok e' ∧ e'.layout = e.layout ∧
      (∃ n marks os, Tracked n marks e ps' os) ∧ (∃ n marks os, Tracked n marks e' qs' os) ∧
      (phraseTokens qs').filterMap (·.captureName?) = (phraseTokens ps').filterMap (·.captureName?) ∧
      captureCount (phraseTokens ps) ≤ captureCount (phraseTokens ps') := by
  obtain ⟨n, marks, os, htracked⟩ := h.first
  obtain ⟨n', marks', os', htracked'⟩ := h.second
  have horder : unfoldedOrder qs = unfoldedOrder ps := by
    rw [unfoldedOrder_eq h.wellFormed.1 hp, unfoldedOrder_eq h.wellFormed.2 hq, h.landmarks]
  have hany : (phraseTokens qs).any (·.kind == .atomicOpen)
      = (phraseTokens ps).any (·.kind == .atomicOpen) := by
    rw [Bool.eq_iff_iff, any_atomic_iff, any_atomic_iff, horder]
  cases ha : (phraseTokens ps).any (·.kind == .atomicOpen) with
  | false =>
    exact ⟨d, d', ps, qs, unfoldAtomic_of_no_atomic hs ha,
      unfoldAtomic_of_no_atomic hs' (hany.trans ha), h.layout, h.first, h.second, h.titles_eq,
      Nat.le_refl _⟩
  | true =>
    refine ⟨_, _, unfolded ps, unfolded qs, unfoldAtomic_eq htracked.coherent hs ha,
      unfoldAtomic_eq htracked'.coherent hs' (hany.trans ha), ?_, ⟨n, marks, _, htracked.unfold_all⟩,
      ⟨n', marks', _, htracked'.unfold_all⟩, ?_, ?_⟩
    · rw [horder, h.layout]
    · rw [titles_unfolded h.wellFormed.1, titles_unfolded h.wellFormed.2, horder, h.titles_eq]
    · rw [captureCount_unfolded h.wellFormed.1]
      exact (reorders_unfoldKeys (phraseTokens ps)).le_length

theorem self : Twins d d ps ps :=
  ⟨h.first, h.first, rfl, rfl⟩

/-- There are no more captures than fit into the reduced text. -/
theorem captureCount_lt {d₂ e : Draft} (hpossess : groupPossessive d = .ok d₂)
    (hunfold : unfoldAtomic d₂ = .ok e) (hsize : e.text.length < 2 ^ 64) :
    captureCount (phraseTokens (possessAll ps)) < 2 ^ 64 ∧
      captureCount (phraseTokens ps) < 2 ^ 64 := by
  obtain ⟨_, hs, -⟩ := exists_of_bind_eq_ok hpossess
  replace hs := h.scan_first hs
  obtain ⟨_, _, he, -, h₂⟩ := h.self.possess hs hs
  cases hpossess.symm.trans he
  obtain ⟨_, hs₂, -⟩ := exists_of_bind_eq_ok hunfold
  replace hs₂ := h₂.scan_first hs₂
  have hgreedy := (counts_possessAll h.wellFormed.1 h₂.wellFormed.1).2.1
  obtain ⟨_, _, ps', _, he, -, -, ⟨_, _, _, htracked⟩, -, -, hle⟩ :=
    h₂.self.unfold hs₂ hs₂ hgreedy hgreedy
  cases hunfold.symm.trans he
  have hlength := htracked.captureCount_le_length
  have hsame : captureCount (phraseTokens (possessAll ps)) = captureCount (phraseTokens ps) := by
    rw [← openingCount_landmarksAll h₂.wellFormed.1, ← openingCount_landmarksAll h.wellFormed.1,
      landmarksAll_possessAll]
  omega

/-- **If one draft can be reduced, so can the other**, with the same layout and the same capture
names. -/
theorem toHost {depth : Nat} (hd : 1 ≤ depth) (hr : RecursesInside depth ps)
    (hr' : RecursesInside depth qs)
    (hk : ∀ t ∈ phraseTokens ps, ∀ s k, t.kind ≠ .groupRecursion (.name s) k) {e : Draft}
    (hhost : Reduction.toHost d = .ok e) (hsize : e.text.length < 2 ^ 64) :
    ∃ e' names, Reduction.toHost d' = .ok e' ∧ e'.layout = e.layout ∧
      captureNames e.text = .ok names ∧ captureNames e'.text = .ok names := by
  obtain ⟨d₁, hunroll, hhost⟩ := exists_of_bind_eq_ok hhost
  obtain ⟨d₂, hpossess, hunfold⟩ := exists_of_bind_eq_ok hhost
  obtain ⟨_, hs, -⟩ := exists_of_bind_eq_ok hunroll
  replace hs := h.scan_first hs
  -- the first draft by itself says how many captures there are
  obtain ⟨_, _, ps₀, _, he, -, h₀, hle⟩ := h.self.unroll hs hs hd hr hr hk
  cases hunroll.symm.trans he
  have hsmall := (h₀.captureCount_lt hpossess hunfold hsize).2
  obtain ⟨_, d₁', ps₁, qs₁, he, hunroll', h₁, -⟩ :=
    h.unroll hs (h.scan_second (by omega)) hd hr hr' hk
  cases hunroll.symm.trans he
  obtain ⟨hsmall₂, hsmall₁⟩ := h₁.captureCount_lt hpossess hunfold hsize
  obtain ⟨_, hs₁, -⟩ := exists_of_bind_eq_ok hpossess
  obtain ⟨_, d₂', he, hpossess', h₂⟩ := h₁.possess (h₁.scan_first hs₁) (h₁.scan_second hsmall₁)
  cases hpossess.symm.trans he
  obtain ⟨_, hs₂, -⟩ := exists_of_bind_eq_ok hunfold
  obtain ⟨_, e', ps₃, qs₃, he, hunfold', hlayout, ⟨_, _, _, hp⟩, ⟨_, _, _, hq⟩, htitles, -⟩ :=
    h₂.unfold (h₂.scan_first hs₂) (h₂.scan_second hsmall₂)
      (counts_possessAll h₁.wellFormed.1 h₂.wellFormed.1).2.1
      (counts_possessAll h₁.wellFormed.2 h₂.wellFormed.2).2.1
  cases hunfold.symm.trans he
  have hcount : captureCount (phraseTokens ps₃) < 2 ^ 64 :=
    Nat.lt_of_le_of_lt hp.captureCount_le_length hsize
  refine ⟨e', (phraseTokens ps₃).filterMap (·.captureName?), ?_, hlayout, ?_, ?_⟩
  · rw [Reduction.toHost, hunroll']
    show (do let p ← groupPossessive d₁'; _) = _
    rw [hpossess']
    exact hunfold'
  · rw [captureNames, hp.scan_of_lt hcount]
    rfl
  · rw [captureNames, hq.scan_of_lt (by rwa [captureCount, htitles]), ← htitles]
    rfl

end

end Twins

end Diglot.Reduction
