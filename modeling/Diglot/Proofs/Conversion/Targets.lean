import Diglot.Proofs.Conversion.Captures
import Diglot.Proofs.Emitted.Leniency
import Diglot.Proofs.Reduction.Alike

/-!
# Later targets

The target and the groups that are kept change the text that is written, and so everything that the
reductions see. Still, a pattern that can be converted for one target can be converted for every
later one, with the same plan for its captures.
-/

namespace Diglot

open Emitted Reduction

variable {s s' : Settings} {o : WriteOptions} {root : Core.Node} {text : Text} {ps : List Phrase}
  {groups : Source.Groups}

/-! ## The order of targets -/

/-- The place of an edition among the others. -/
def Target.rank : Target → Nat
  | es2018 => 0
  | es2024 => 1
  | es2025 => 2

/-- Editions are ordered by when they came. -/
instance : LE Target := ⟨fun s t => s.rank ≤ t.rank⟩

instance (s t : Target) : Decidable (s ≤ t) :=
  inferInstanceAs (Decidable (s.rank ≤ t.rank))

/-- A later edition has modifier groups if an earlier one has. -/
theorem Target.hasFlagGroups_of_le {s t : Target} (h : s ≤ t) (hs : s.hasFlagGroups) :
    t.hasFlagGroups := by
  cases s with
  | es2018 | es2024 => cases hs
  | es2025 =>
    cases t with
    | es2025 => rfl
    | es2018 | es2024 => exact absurd h (by decide)

/-- The edition that a pattern is written for. -/
def Options.edition (o : Options) : Target :=
  o.target.getD hostFeatures.newestTarget

theorem normalize_target (o : Options) (target : Option Target) (verbose : Bool) :
    { o with target, verbose }.normalize
      = (fun s : Settings => { s with target := { o with target }.edition, verbose })
        <$> o.normalize := by
  unfold Options.normalize
  dsimp only
  split
  · rfl
  split
  · rfl
  cases Flags.ofString o.flags with
  | error e => rfl
  | ok flags => rfl

/-- What the options say is what the settings say. -/
theorem settings_of_normalize {o : Options} (h : o.normalize = .ok s) :
    s.target = o.edition ∧ s.lazyCompileLength = o.lazyCompileLength := by
  unfold Options.normalize at h
  split at h
  · cases h
  dsimp only at h
  split at h
  · cases h
  obtain ⟨flags, -, h⟩ := exists_of_bind_eq_ok h
  cases h
  exact ⟨rfl, rfl⟩

/-! ## Written patterns -/

/-- Markers of a written pattern do not name their groups. -/
theorem marker_of_written (h : WrittenAs o root text ps)
    (hsize : captureCount (phraseTokens ps) < 2 ^ 64) :
    ∀ t ∈ phraseTokens ps, ∀ s k, t.kind ≠ .groupRecursion (.name s) k := by
  intro t ht s k hk
  have hmem : t.kind ∈ ((phraseTokens ps).filter (·.kind.isMarker)).map (·.kind) :=
    List.mem_map_of_mem (List.mem_filter.2 ⟨ht, by rw [hk]; rfl⟩)
  rw [← (counts_tallyAll ps h.legible.wellFormed).markers, h.tally, walkTally] at hmem
  obtain ⟨_, hm, hkind⟩ := List.mem_map.1 hmem
  obtain ⟨m, -, rfl⟩ := List.mem_map.1 hm
  -- the number of the group is the number of a capture, which is small
  have hsmall : ((Numbering.of root).primary? m.1).getD 0 < 2 ^ 64 := by
    cases hp : (Numbering.of root).primary? m.1 with
    | none => exact Nat.two_pow_pos 64
    | some i =>
      obtain ⟨e, he, -⟩ := of_primary? hp
      have hle := ((Numbering.counts_of root).le he).2
      rw [length_entries_of, ← captureCount_writtenAs h] at hle
      exact Nat.lt_of_le_of_lt hle hsize
  rw [hk, markerToken] at hkind
  dsimp only [Writing.of] at hkind
  rw [groupNumbered, if_pos hsmall] at hkind
  split at hkind <;> cases hkind

/-- Two written forms of a lowered tree are twins. -/
theorem twins_written {st : Bool}
    (hl : Core.Lowered (groups.toList.map (·.1)) [] false groups.toList false st root)
    {o' : WriteOptions} {text' : Text} {qs : List Phrase} (h : WrittenAs o root text ps)
    (h' : WrittenAs o' root text' qs) (hlimit : o'.recursionLimit = o.recursionLimit) :
    Twins ⟨text, (Numbering.of root).layout⟩ ⟨text', (Numbering.of root).layout⟩ ps qs where
  first := ⟨_, _, _, tracked_written hl h⟩
  second := ⟨_, _, _, tracked_written hl h'⟩
  landmarks := h.landmarks_eq h' hl.plain hlimit
  layout := rfl

/-! ## Conversions -/

/-- The plan for matching depends on the layout and the strategy only, if patterns are not compiled
when they are first used. -/
theorem emulation?_congr (h : s.lazyCompileLength = none) (h' : s'.lazyCompileLength = none)
    (strategy : Option Strategy) {e e' : Draft} (hlayout : e'.layout = e.layout) :
    s'.emulation? strategy e' = s.emulation? strategy e := by
  have hlazy : ∀ {s : Settings}, s.lazyCompileLength = none → ∀ n, s.compilesLazily n = false := by
    intro s h n
    rw [Settings.compilesLazily, h]
    rfl
  unfold Settings.emulation?
  dsimp only
  rw [hlazy h, hlazy h', hlayout]

/-- Settings that finish written patterns alike. -/
structure Settings.FinishAlike (s s' : Settings) : Prop where
  avoidEmulation : s'.avoidEmulation = s.avoidEmulation
  recursionLimit : s'.rules.recursionLimit = s.rules.recursionLimit
  lazyCompileLength : s.lazyCompileLength = none ∧ s'.lazyCompileLength = none

/-- If one written form of a tree can be finished, so can the other, with the same plan. -/
theorem finish_alike {met : Bool}
    (hl : Core.Lowered (groups.toList.map (·.1)) [] false groups.toList false met root)
    (hs : s.FinishAlike s') (hpos : 1 ≤ s.rules.recursionLimit)
    (hfits : s.rules.recursionLimit < 2 ^ 32) {written written' : Written}
    (hwrite : writePattern s.writing root = .ok written)
    (hwrite' : writePattern s'.writing root = .ok written') {strategy : Option Strategy}
    {c : Conversion} (hfinish : s.finish strategy written = .ok c)
    (hwritten : written.text.length < 2 ^ 64) (hresult : c.pattern.length < 2 ^ 64) :
    ∃ c' names, s'.finish strategy written' = .ok c' ∧ c'.emulation = c.emulation ∧
      captureNames c.pattern.toList = .ok names ∧ captureNames c'.pattern.toList = .ok names := by
  have hlimit : s'.writing.recursionLimit = s.writing.recursionLimit := hs.recursionLimit
  obtain ⟨⟨ps, hps⟩, hlayout⟩ := exists_writtenAs hl.plain hfits hwrite
  obtain ⟨⟨qs, hqs⟩, hlayout'⟩ := exists_writtenAs hl.plain (by rwa [hlimit]) hwrite'
  have htwins := twins_written hl hps hqs hlimit
  have hcount : captureCount (phraseTokens ps) < 2 ^ 64 :=
    Nat.lt_of_le_of_lt (tracked_written hl hps).captureCount_le_length hwritten
  have hinside := recursesInside_written hl hps hcount
  have hinside' := recursesInside_written hl hqs (by rwa [htwins.captureCount_eq])
  rw [hlimit] at hinside'
  obtain ⟨d, hhost, hfinish⟩ := exists_of_bind_eq_ok hfinish
  rw [hlayout] at hhost
  split at hfinish
  next => cases hfinish
  next hemulation =>
    cases hfinish
    dsimp only at hresult ⊢
    rw [String.length_ofList] at hresult
    obtain ⟨d', names, hhost', hlayouts, hnames, hnames'⟩ :=
      htwins.toHost hpos hinside hinside' (marker_of_written hps hcount) hhost hresult
    refine ⟨⟨String.ofList d'.text, s'.hostFlags written'.flags, s'.emulation? strategy d'⟩, names,
      ?_, emulation?_congr hs.lazyCompileLength.1 hs.lazyCompileLength.2 strategy hlayouts,
      by rwa [String.toList_ofList], by rwa [String.toList_ofList]⟩
    rw [Settings.finish, hlayout', hhost']
    show (if s'.avoidEmulation && !d'.layout.isEmpty then _ else _) = _
    rw [hs.avoidEmulation, hlayouts, if_neg hemulation]
    rfl

/-- **Later targets never refuse more, and the plan for captures does not depend on the target.** A
pattern that is converted for an edition is converted for every later one, with or without the groups
that are not needed: with the same hidden captures, transfers and strategy, and with the same capture
names. -/
theorem conversion_of_later {o : Options} {pattern : String} {st : Stages}
    (h : Stages.ofSource o pattern = .ok st) (hlazy : o.lazyCompileLength = none)
    (hnames : st.source.root.keeps .unbracketed) (hwritten : st.written.text.length < 2 ^ 64)
    (hresult : st.result.pattern.length < 2 ^ 64) {target : Option Target}
    (hlater : o.edition ≤ { o with target }.edition) (verbose : Bool) :
    ∃ c names, Conversion.ofSource { o with target, verbose } pattern = .ok c ∧
      c.emulation = st.result.emulation ∧ captureNames st.result.pattern.toList = .ok names ∧
      captureNames c.pattern.toList = .ok names := by
  obtain ⟨s, hnormalize, hrules, hleast, hgreatest, hread, hlower, hwrite, hfinish⟩ :=
    exists_of_stages h
  obtain ⟨htarget, hlength⟩ := settings_of_normalize hnormalize
  let s' : Settings := { s with target := { o with target }.edition, verbose }
  have hnormalize' : { o with target, verbose }.normalize = .ok s' := by
    rw [normalize_target, hnormalize]
    rfl
  -- the tree can be written for the later target too
  have hle : s.target ≤ s'.target := by
    rw [htarget]
    exact hlater
  have hrelaxes : s.writing.Relaxes False (caseMode st.core.root) s'.writing :=
    ⟨rfl, id, fun _ => Target.hasFlagGroups_of_le hle, fun _ => False.elim, False.elim, False.elim⟩
  obtain ⟨written, hwrite', -⟩ := (refines_writePattern hrelaxes).succeeds _ hwrite
  obtain ⟨_, hlowered⟩ := lowered_of_read hread hnames hlower
  have halike : s.FinishAlike s' := ⟨rfl, rfl, hlength.trans hlazy, hlength.trans hlazy⟩
  obtain ⟨c, names, hfinish', hemulation, hfirst, hsecond⟩ := finish_alike hlowered halike
    (by rw [hrules]; exact Nat.le_trans (by decide) hleast)
    (by rw [hrules]; exact Nat.lt_of_le_of_lt hgreatest (by decide)) hwrite hwrite' hfinish hwritten
    hresult
  refine ⟨c, names, ?_, hemulation, hfirst, hsecond⟩
  -- reading and lowering do not depend on the target
  have hread' : Source.Pattern.read s'.reading pattern.toList = .ok st.source := hread
  have hlower' : Core.Pattern.lower s'.lowering st.source = .ok st.core := hlower
  have hrun : s'.run pattern = .ok ⟨st.source, st.core, written, c⟩ := by
    simp only [Settings.run, hread', hlower', hwrite', hfinish', bind, Except.bind, pure, Except.pure]
  rw [Conversion.ofSource, Stages.ofSource, hnormalize']
  show (do let stages ← s'.run pattern; _) = _
  rw [hrun]
  rfl

/-- A pattern with a leaf that ignores case, a recursion, a subroutine call, an atomic group and a
possessive quantifier. -/
theorem conversion_of_later_example : ∃ st c names,
    Stages.ofSource { target := some .es2018, rules := { recursionLimit := 3 } }
      "(?i:k)(?<n>a(?<m>b++)\\g<0>?)(?>c\\g<m>|d)" = .ok st ∧
    Conversion.ofSource { target := some .es2025, rules := { recursionLimit := 3 }, verbose := true }
      "(?i:k)(?<n>a(?<m>b++)\\g<0>?)(?>c\\g<m>|d)" = .ok c ∧
    c.emulation = st.result.emulation ∧ captureNames st.result.pattern.toList = .ok names ∧
      captureNames c.pattern.toList = .ok names := by
  obtain ⟨st, hst, hplain, hwritten, hresult⟩ : ∃ st,
      Stages.ofSource { target := some .es2018, rules := { recursionLimit := 3 } }
        "(?i:k)(?<n>a(?<m>b++)\\g<0>?)(?>c\\g<m>|d)" = .ok st ∧ st.source.root.keeps .unbracketed ∧
      st.written.text.length < 2 ^ 64 ∧ st.result.pattern.length < 2 ^ 64 := by
    decide +kernel
  obtain ⟨c, names, hc, hall⟩ := conversion_of_later hst rfl hplain hwritten hresult
    (show _ ≤ Options.edition { target := some .es2025 } by decide) true
  exact ⟨st, c, names, hst, hc, hall⟩

end Diglot
