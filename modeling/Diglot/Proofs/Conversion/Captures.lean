import Diglot.Conversion
import Diglot.Proofs.Reduction.HostSyntax

/-!
# The captures of a conversion

What the hidden captures and the transfers of a converted pattern say, from the source to the host
text. The visible captures are the groups of the source, a hidden capture that is reported under
another is a copy of a group, and the other hidden captures stand for atomic groups.
-/

namespace Diglot

open Emitted Reduction

variable {s : Settings} {o : Options}

/-- The captures of a conversion that the user does not see. -/
def Conversion.hidden (c : Conversion) : List Nat :=
  (c.emulation.map (·.hidden)).getD []

/-- The transfers of a conversion. -/
def Conversion.transfers (c : Conversion) : List (Nat × List Nat) :=
  (c.emulation.map (·.transfers)).getD []

/-! ## Stages of a conversion -/

theorem emulation?_eq (s : Settings) (strategy : Option Strategy) (p : Draft) :
    ((s.emulation? strategy p).map (·.hidden)).getD [] = p.layout.hidden ∧
      ((s.emulation? strategy p).map (·.transfers)).getD [] = p.layout.transfers := by
  unfold Settings.emulation?
  dsimp only
  split
  next hempty =>
    have hlayout : p.layout.isEmpty := by simp_all
    simp only [CaptureLayout.isEmpty, Bool.and_eq_true, List.isEmpty_iff] at hlayout
    exact ⟨hlayout.1.symm, hlayout.2.symm⟩
  next => exact ⟨rfl, rfl⟩

theorem exists_of_finish {strategy : Option Strategy} {w : Written} {c : Conversion}
    (h : s.finish strategy w = .ok c) :
    ∃ d, toHost ⟨w.text, w.layout⟩ = .ok d ∧ c.pattern = String.ofList d.text ∧
      c.hidden = d.layout.hidden ∧ c.transfers = d.layout.transfers := by
  obtain ⟨d, hd, h⟩ := exists_of_bind_eq_ok h
  split at h
  · cases h
  · cases h
    obtain ⟨hhidden, htransfers⟩ := emulation?_eq s strategy d
    exact ⟨d, hd, rfl, hhidden, htransfers⟩

/-- Settings have the rules of the options, with a recursion limit in range. -/
theorem rules_of_normalize (h : o.normalize = .ok s) :
    s.rules = o.rules ∧ leastRecursionLimit ≤ o.rules.recursionLimit ∧
      o.rules.recursionLimit ≤ greatestRecursionLimit := by
  unfold Options.normalize at h
  split at h
  · cases h
  · dsimp only at h
    split at h
    · cases h
    next hlimit =>
      obtain ⟨flags, -, h⟩ := exists_of_bind_eq_ok h
      cases h
      simp only [Bool.or_eq_true, decide_eq_true_eq] at hlimit
      exact ⟨rfl, by omega, by omega⟩

/-- What there is at each stage of a conversion. -/
theorem exists_of_stages {pattern : String} {st : Stages} (h : Stages.ofSource o pattern = .ok st) :
    ∃ s : Settings, o.normalize = .ok s ∧ s.rules = o.rules ∧ leastRecursionLimit ≤ o.rules.recursionLimit ∧
      o.rules.recursionLimit ≤ greatestRecursionLimit ∧
      Source.Pattern.read s.reading pattern.toList = .ok st.source ∧
      Core.Pattern.lower s.lowering st.source = .ok st.core ∧
      writePattern s.writing st.core.root = .ok st.written ∧
      s.finish st.core.strategy st.written = .ok st.result := by
  obtain ⟨s, hs, h⟩ := exists_of_bind_eq_ok h
  have hrules := rules_of_normalize hs
  obtain ⟨source, hread, h⟩ := exists_of_bind_eq_ok h
  obtain ⟨core, hlower, h⟩ := exists_of_bind_eq_ok h
  obtain ⟨written, hwrite, h⟩ := exists_of_bind_eq_ok h
  obtain ⟨result, hfinish, h⟩ := exists_of_bind_eq_ok h
  cases h
  exact ⟨s, hs, hrules.1, hrules.2.1, hrules.2.2, hread, hlower, hwrite, hfinish⟩

end Diglot

namespace Diglot.Reduction

open Emitted

/-- **What the reductions make of a tracked draft is tracked**, if they succeed. -/
theorem Tracked.of_toHost {n : Nat} {marks : List (Origin × Option (List Char))} {d d' : Draft}
    {ps : List Phrase} {os : List Origin} (h : Tracked n marks d ps os) {depth : Nat}
    (hd : 1 ≤ depth) (hr : RecursesInside depth ps) (hhost : toHost d = .ok d') :
    ∃ d₁ d₂ ts₂ ps', unrollRecursion d = .ok d₁ ∧ groupPossessive d₁ = .ok d₂ ∧
      unfoldAtomic d₂ = .ok d' ∧ scan d.text = .ok (phraseTokens ps) ∧ scan d₂.text = .ok ts₂ ∧
      Tracked n marks d' ps' (unfoldOrigins (unrollOrigins os (phraseTokens ps)) ts₂) := by
  obtain ⟨d₁, hunroll, hhost⟩ := exists_of_bind_eq_ok hhost
  obtain ⟨d₂, hpossess, hunfold⟩ := exists_of_bind_eq_ok hhost
  -- each reduction scans its draft first
  obtain ⟨_, hs, -⟩ := exists_of_bind_eq_ok hunroll
  obtain ⟨d₁', ps₁, hunroll', h₁, hmarkers, -⟩ := h.unroll (h.scan_eq hs) hd hr
  cases hunroll.symm.trans hunroll'
  obtain ⟨_, hs₁, -⟩ := exists_of_bind_eq_ok hpossess
  obtain ⟨d₂', hpossess', h₂⟩ := h₁.possess (h₁.scan_eq hs₁)
  cases hpossess.symm.trans hpossess'
  obtain ⟨-, hgreedy, hkinds⟩ :=
    counts_possessAll h₁.coherent.legible.wellFormed h₂.coherent.legible.wellFormed
  obtain ⟨_, hs₂, -⟩ := exists_of_bind_eq_ok hunfold
  obtain ⟨d₃', ps₃, hunfold', h₃, -⟩ := h₂.unfold (h₂.scan_eq hs₂) hgreedy (hkinds hmarkers)
  cases hunfold.symm.trans hunfold'
  exact ⟨d₁, d₂, _, ps₃, hunroll, hpossess, hunfold, h.scan_eq hs, h₂.scan_eq hs₂, h₃⟩

end Diglot.Reduction

namespace Diglot

open Emitted Reduction

variable {n : Nat} {os : List Origin} {names : List (Option (List Char))} {l : CaptureLayout}

/-- **The host text of a conversion is tracked from the source on.** -/
theorem tracked_of_stages {o : Options} {pattern : String} {st : Stages}
    (h : Stages.ofSource o pattern = .ok st) (hnames : st.source.root.keeps .unbracketed)
    (hwritten : st.written.text.length < 2 ^ 64) :
    ∃ d₁ d₂ d₃ ts₀ ts₂ ps, unrollRecursion ⟨st.written.text, st.written.layout⟩ = .ok d₁ ∧
      groupPossessive d₁ = .ok d₂ ∧ unfoldAtomic d₂ = .ok d₃ ∧
      st.result.pattern = String.ofList d₃.text ∧ st.result.hidden = d₃.layout.hidden ∧
      st.result.transfers = d₃.layout.transfers ∧
      scan st.written.text = .ok ts₀ ∧ scan d₂.text = .ok ts₂ ∧
      Tracked st.source.groups.count (sourceMarks st.source.groups) d₃ ps
        (unfoldOrigins (unrollOrigins (writtenOrigins st.core.root) ts₀) ts₂) ∧
      .added ∉ unrollOrigins (writtenOrigins st.core.root) ts₀ := by
  obtain ⟨s, -, hrules, hleast, hgreatest, hread, hlower, hwrite, hfinish⟩ := exists_of_stages h
  obtain ⟨d₃, hhost, hpattern, hhidden, htransfers⟩ := exists_of_finish hfinish
  obtain ⟨_, hlowered⟩ := lowered_of_read hread hnames hlower
  have hlimit : s.writing.recursionLimit = o.rules.recursionLimit := by rw [← hrules]; rfl
  have hpos : 1 ≤ s.writing.recursionLimit := by
    rw [hlimit]
    exact Nat.le_trans (by decide) hleast
  have hfits : s.writing.recursionLimit < 2 ^ 32 := by
    rw [hlimit]
    exact Nat.lt_of_le_of_lt hgreatest (by decide)
  obtain ⟨⟨ps, hps⟩, hlayout⟩ := exists_writtenAs hlowered.plain hfits hwrite
  have htracked := tracked_written hlowered hps
  have hinside := recursesInside_written hlowered hps
    (Nat.lt_of_le_of_lt htracked.captureCount_le_length hwritten)
  rw [hlayout] at hhost
  obtain ⟨d₁, d₂, ts₂, ps', hunroll, hpossess, hunfold, hs, hs₂, h₃⟩ :=
    htracked.of_toHost hpos hinside hhost
  rw [← hlayout] at hunroll
  refine ⟨d₁, d₂, d₃, _, ts₂, ps', hunroll, hpossess, hunfold, hpattern, hhidden, htransfers, hs,
    hs₂, h₃, added_not_mem_unrollOrigins hpos hinside htracked.length ?_⟩
  intro hadded
  obtain ⟨heading, -, ho⟩ := List.mem_map.1 hadded
  unfold headingOrigin at ho
  split at ho <;> cases ho

/-- The names of the captures of a tracked draft. -/
theorem captureNames_of_tracked {marks : List (Origin × Option (List Char))} {d : Draft}
    {ps : List Phrase} (h : Tracked n marks d ps os) (hsize : d.text.length < 2 ^ 64) :
    captureNames d.text = .ok ((phraseTokens ps).filterMap (·.captureName?)) := by
  rw [captureNames, h.scan_of_lt (Nat.lt_of_le_of_lt h.captureCount_le_length hsize)]
  rfl

/-! ## Visible captures -/

/-- The names of the captures that are not hidden, in opening order. -/
def visibleNames (hidden : List Nat) (names : List (Option (List Char))) :
    List (Option (List Char)) :=
  ((names.zipIdx 1).filter (!hidden.contains ·.2)).map (·.1)

/-- Hidden captures are those that are not visible. -/
theorem length_hidden_add {hidden : List Nat} (hp : hidden.Pairwise (· < ·))
    (hb : ∀ i ∈ hidden, 1 ≤ i ∧ i ≤ names.length) :
    hidden.length + (visibleNames hidden names).length = names.length := by
  have hsplit := List.length_eq_length_filter_add (l := names.zipIdx 1) (hidden.contains ·.2)
  have hhidden : ((names.zipIdx 1).filter (hidden.contains ·.2)).length = hidden.length := by
    have hmap : ((names.zipIdx 1).filter (hidden.contains ·.2)).map (·.2)
        = (List.range' 1 names.length).filter hidden.contains := by
      rw [← List.zipIdx_map_snd 1 names, List.filter_map]
      rfl
    have hperm : ((List.range' 1 names.length).filter hidden.contains).Perm hidden := by
      refine (List.perm_ext_iff_of_nodup (.filter _ List.nodup_range')
        (hp.imp fun hlt => Nat.ne_of_lt hlt)).2 fun i => ?_
      rw [List.mem_filter, List.mem_range'_1, List.contains_iff_mem]
      constructor
      · exact fun hi => hi.2
      · exact fun hi => ⟨by have := hb i hi; omega, hi⟩
    rw [← List.length_map, hmap, hperm.length_eq]
  rw [List.length_zipIdx] at hsplit
  rw [visibleNames, List.length_map]
  omega

/-- The visible captures are those that come from a group. -/
theorem visibleNames_eq (h : Describes l os) (hlength : os.length = names.length) :
    visibleNames l.hidden names = (groupMarks os names).map (·.2) := by
  have hall : ∀ (os : List Origin) (names : List (Option (List Char))) (k : Nat),
      os.length = names.length →
      (∀ i o, os[i]? = some o → l.hidden.contains (k + i) = !o.isGroup) →
      ((names.zipIdx k).filter (!l.hidden.contains ·.2)).map (·.1)
        = ((os.zip names).filter (·.1.isGroup)).map (·.2) := by
    intro os
    induction os with
    | nil =>
      intro names k hlength _
      rw [List.length_eq_zero_iff.1 hlength.symm]
      rfl
    | cons o os ih =>
      intro names k hlength horigin
      match names, hlength with
      | name :: names, hlength =>
        have hfirst := horigin 0 o rfl
        have hrest := ih names (k + 1) (Nat.succ.inj hlength) fun i o' hi => by
          rw [Nat.add_assoc, Nat.add_comm 1 i]
          exact horigin (i + 1) o' hi
        rw [Nat.add_zero] at hfirst
        rw [List.zipIdx_cons, List.filter_cons, List.zip_cons_cons, List.filter_cons]
        dsimp only
        rw [hfirst, Bool.not_not]
        cases o.isGroup with
        | true => exact congrArg (name :: ·) hrest
        | false => exact hrest
  refine hall os names 1 hlength fun i o hi => ?_
  have ho : OriginAt os (1 + i) o := ⟨by omega, by rw [Nat.add_sub_cancel_left]; exact hi⟩
  cases hg : o.isGroup with
  | true =>
    obtain ⟨g, rfl⟩ := Origin.exists_of_isGroup hg
    simpa using h.not_mem_hidden ho
  | false => simpa using (h.hidden (1 + i)).2 ⟨o, ho, hg⟩

theorem map_snd_sourceMarks (groups : Source.Groups) :
    (sourceMarks groups).map (·.2) = firstUses [] groups.names := by
  have hlength : ∀ (names seen : List (Option String)),
      (firstUses seen names).length = names.length := by
    intro names
    induction names with
    | nil => exact fun _ => rfl
    | cons name names ih => exact fun seen => congrArg (· + 1) (ih _)
  rw [sourceMarks]
  refine List.map_snd_zip ?_
  rw [List.length_map, List.length_range', hlength]
  exact Nat.le_refl _

/-- **The visible captures of a conversion are the groups of its source.** The hidden captures are
captures of the host text in ascending order, there are as many other captures as groups, and each
of them has the name of its group, unless an earlier group has that name. An index of a text has to
fit into 64 bits. -/
theorem visible_captures {o : Options} {pattern : String} {st : Stages}
    (h : Stages.ofSource o pattern = .ok st) (hnames : st.source.root.keeps .unbracketed)
    (hwritten : st.written.text.length < 2 ^ 64) (hresult : st.result.pattern.length < 2 ^ 64) :
    ∃ names, captureNames st.result.pattern.toList = .ok names ∧
      st.result.hidden.Pairwise (· < ·) ∧
      (∀ i ∈ st.result.hidden, 1 ≤ i ∧ i ≤ names.length) ∧
      st.result.hidden.length + st.source.groups.count = names.length ∧
      ∀ j name, st.source.groups.names[j]? = some name →
        (visibleNames st.result.hidden names)[j]?
          = some (if name ∈ st.source.groups.names.take j then none else name.map (·.toList)) := by
  obtain ⟨_, _, d, _, _, ps, -, -, -, hpattern, hhidden, -, -, -, htracked, -⟩ :=
    tracked_of_stages h hnames hwritten
  have htext : st.result.pattern.toList = d.text := by rw [hpattern, String.toList_ofList]
  have hsize : d.text.length < 2 ^ 64 := by rwa [← htext, String.length_toList]
  have hvisible := visibleNames_eq htracked.describes htracked.length
  rw [htracked.marks, map_snd_sourceMarks] at hvisible
  have hbounds : ∀ i ∈ d.layout.hidden,
      1 ≤ i ∧ i ≤ ((phraseTokens ps).filterMap (·.captureName?)).length := by
    intro i hi
    obtain ⟨o, ho, -⟩ := (htracked.describes.hidden i).1 hi
    refine ⟨ho.1, ?_⟩
    rw [← captureCount, ← htracked.length]
    exact ho.le
  have hascending := htracked.describes.ascending.hidden
  refine ⟨_, by rw [htext]; exact captureNames_of_tracked htracked hsize, ?_⟩
  rw [hhidden]
  refine ⟨hascending, hbounds, ?_, fun j name hj => ?_⟩
  · have hlength := length_hidden_add hascending hbounds
    have hcount : (firstUses [] st.source.groups.names).length = st.source.groups.count := by
      rw [← map_snd_sourceMarks, ← htracked.marks, List.length_map,
        ← List.length_map (f := Prod.fst), map_fst_groupMarks htracked.length,
        htracked.source.groups, List.length_map, List.length_range']
    rwa [hvisible, hcount] at hlength
  · rw [hvisible, getElem?_firstUses hj, List.nil_append]

/-- A pattern with a recursion, a subroutine call, two groups of one name, an atomic group and a
possessive quantifier. -/
theorem visible_captures_example : ∃ st,
    Stages.ofSource { rules := { recursionLimit := 3 } }
      "(?<n>a(?<m>b++)\\g<0>?)(?>c\\g<m>|(?<n>d))" = .ok st ∧
    ∃ names, captureNames st.result.pattern.toList = .ok names ∧
      st.result.hidden.length + st.source.groups.count = names.length := by
  obtain ⟨st, hst, hplain, hwritten, hresult⟩ : ∃ st,
      Stages.ofSource { rules := { recursionLimit := 3 } }
        "(?<n>a(?<m>b++)\\g<0>?)(?>c\\g<m>|(?<n>d))" = .ok st ∧ st.source.root.keeps .unbracketed ∧
      st.written.text.length < 2 ^ 64 ∧ st.result.pattern.length < 2 ^ 64 := by
    decide +kernel
  obtain ⟨names, hnames, -, -, hcount, -⟩ := visible_captures hst hplain hwritten hresult
  exact ⟨st, hst, names, hnames, hcount⟩

/-! ## Hidden captures and transfers -/

/-- The hidden captures and the transfers of a conversion are those of captures that come from where
`os` says. -/
structure Conversion.Accounts (c : Conversion) (os : List Origin) : Prop where
  /-- Captures are reported under visible captures. -/
  destination : ∀ x ∈ c.transfers, 1 ≤ x.1 ∧ x.1 ≤ os.length ∧ x.1 ∉ c.hidden
  /-- Captures that are reported under others are hidden. -/
  source : ∀ x ∈ c.transfers, x.2.Pairwise (· < ·) ∧ ∀ s ∈ x.2, s ∈ c.hidden
  /-- No capture is reported twice. -/
  unique : ∀ x ∈ c.transfers, ∀ y ∈ c.transfers, ∀ s ∈ x.2, s ∈ y.2 → x = y
  /-- A copy of a group is reported under the visible capture of that group and no other. -/
  copies : ∀ g s, OriginAt os s (.copy g) → ∃ d, OriginAt os d (.group g) ∧ d ∉ c.hidden ∧
    (∃ x ∈ c.transfers, x.1 = d ∧ s ∈ x.2) ∧ ∀ x ∈ c.transfers, s ∈ x.2 → x.1 = d
  /-- The other hidden captures are those that were added. -/
  added : ∀ i, i ∈ c.hidden ∧ (∀ x ∈ c.transfers, i ∉ x.2) ↔ OriginAt os i .added

theorem accounts_of_describes {c : Conversion} (hhidden : c.hidden = l.hidden)
    (htransfers : c.transfers = l.transfers) (h : Describes l os) (ho : OfSource n os) :
    c.Accounts os := by
  have hreports : ∀ x ∈ l.transfers, ∀ s ∈ x.2,
      ∃ g, OriginAt os x.1 (.group g) ∧ OriginAt os s (.copy g) := fun x hx s hs =>
    (h.reports x.1 s).1 ⟨x.2, hx, hs⟩
  -- the group of which a capture is a copy has one visible capture
  have hunique : ∀ x ∈ l.transfers, ∀ s ∈ x.2, ∀ g d, OriginAt os s (.copy g) →
      OriginAt os d (.group g) → x.1 = d := by
    intro x hx s hs g d hcopy hgroup
    obtain ⟨g', hd, hs'⟩ := hreports x hx s hs
    cases hs'.unique hcopy
    exact ho.group_unique hd hgroup
  constructor
  all_goals rw [htransfers]
  case destination =>
    intro x hx
    obtain ⟨s, hs⟩ := List.exists_mem_of_ne_nil x.2 (h.ascending.sources x hx).1
    obtain ⟨g, hd, -⟩ := hreports x hx s hs
    rw [hhidden]
    exact ⟨hd.1, hd.le, h.not_mem_hidden hd⟩
  case source =>
    intro x hx
    refine ⟨(h.ascending.sources x hx).2, fun s hs => ?_⟩
    obtain ⟨g, -, hcopy⟩ := hreports x hx s hs
    rw [hhidden]
    exact (h.hidden s).2 ⟨_, hcopy, rfl⟩
  case unique =>
    intro x hx y hy s hs hs'
    obtain ⟨g, hd, hcopy⟩ := hreports y hy s hs'
    have hdestination := hunique x hx s hs g y.1 hcopy hd
    have hnodup : (l.transfers.map (·.1)).Nodup :=
      List.pairwise_map.2 (h.ascending.destinations.imp Nat.ne_of_lt)
    exact List.inj_on_of_nodup_map hnodup hx hy hdestination
  case copies =>
    intro g s hcopy
    obtain ⟨d, hd⟩ := ho.exists_of_copy hcopy
    obtain ⟨sources, hmem, hs⟩ := (h.reports d s).2 ⟨g, hd, hcopy⟩
    rw [hhidden]
    exact ⟨d, hd, h.not_mem_hidden hd, ⟨_, hmem, rfl, hs⟩,
      fun x hx hsx => hunique x hx s hsx g d hcopy hd⟩
  case added =>
    intro i
    rw [hhidden, h.hidden]
    constructor
    · rintro ⟨⟨o, hi, hg⟩, hnot⟩
      cases o with
      | group g => cases hg
      | added => exact hi
      | copy g =>
        obtain ⟨d, hd⟩ := ho.exists_of_copy hi
        obtain ⟨sources, hmem, hs⟩ := (h.reports d i).2 ⟨g, hd, hi⟩
        exact absurd hs (hnot _ hmem)
    · intro hi
      refine ⟨⟨.added, hi, rfl⟩, fun x hx hs => ?_⟩
      obtain ⟨g, -, hcopy⟩ := hreports x hx i hs
      cases hi.unique hcopy

/-- **Hidden captures are copies of groups or stand for atomic groups.** The captures of a core tree
come from groups of the source, unrolling copies those of a region, and the last reduction adds one
for each atomic group that it finds. A hidden capture of a conversion is reported under the visible
capture of the group that it is a copy of, or it was added. -/
theorem hidden_captures {o : Options} {pattern : String} {st : Stages}
    (h : Stages.ofSource o pattern = .ok st) (hnames : st.source.root.keeps .unbracketed)
    (hwritten : st.written.text.length < 2 ^ 64) (hresult : st.result.pattern.length < 2 ^ 64) :
    ∃ d₁ d₂ d₃ ts₀ ts₂ names,
      unrollRecursion ⟨st.written.text, st.written.layout⟩ = .ok d₁ ∧
      groupPossessive d₁ = .ok d₂ ∧ unfoldAtomic d₂ = .ok d₃ ∧
      st.result.pattern = String.ofList d₃.text ∧
      scan st.written.text = .ok ts₀ ∧ scan d₂.text = .ok ts₂ ∧ captureNames d₃.text = .ok names ∧
      ∃ os, os = unfoldOrigins (unrollOrigins (writtenOrigins st.core.root) ts₀) ts₂ ∧
        os.length = names.length ∧ OfSource st.source.groups.count os ∧ st.result.Accounts os ∧
        os.count .added = ts₂.countP (·.kind == .atomicOpen) := by
  obtain ⟨d₁, d₂, d₃, ts₀, ts₂, ps, hunroll, hpossess, hunfold, hpattern, hhidden, htransfers, hs,
    hs₂, htracked, hadded⟩ := tracked_of_stages h hnames hwritten
  have hsize : d₃.text.length < 2 ^ 64 := by
    rwa [hpattern, String.length_ofList] at hresult
  exact ⟨d₁, d₂, d₃, ts₀, ts₂, _, hunroll, hpossess, hunfold, hpattern, hs, hs₂,
    captureNames_of_tracked htracked hsize, _, rfl, htracked.length, htracked.source,
    accounts_of_describes hhidden htransfers htracked.describes htracked.source,
    count_added_unfoldOrigins hadded⟩

/-- A recursion into a group with a subroutine call in it, inside an atomic group. -/
theorem hidden_captures_example : ∃ st,
    Stages.ofSource { rules := { recursionLimit := 3 } } "(?>(a\\g<2>\\g<1>?)(b?+))" = .ok st ∧
    ∃ os, OfSource st.source.groups.count os ∧ st.result.Accounts os := by
  obtain ⟨st, hst, hplain, hwritten, hresult⟩ : ∃ st,
      Stages.ofSource { rules := { recursionLimit := 3 } } "(?>(a\\g<2>\\g<1>?)(b?+))" = .ok st ∧
      st.source.root.keeps .unbracketed ∧ st.written.text.length < 2 ^ 64 ∧
      st.result.pattern.length < 2 ^ 64 := by
    decide +kernel
  obtain ⟨_, _, _, _, _, _, -, -, -, -, -, -, -, os, -, -, hsource, haccounts, -⟩ :=
    hidden_captures hst hplain hwritten hresult
  exact ⟨st, hst, os, hsource, haccounts⟩

end Diglot
