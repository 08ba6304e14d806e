import Diglot.Proofs.Reduction.Tracked

/-!
# Where the captures of a written pattern come from

A visible capture of a core tree is a group of the source, and a hidden one is a copy of a group.
The layout of the written pattern describes these origins, so that a written pattern is a tracked
draft. Its recursion marker, if it has one, stands inside the region that it names.
-/

namespace Diglot.Reduction

open Core (Heading)
open Emitted

variable {x : Nat × CaptureEntry} {i d s g : Nat} {e : CaptureEntry} {root : Core.Node}
  {n : Numbering} {l : CaptureLayout} {h : Heading} {groups : Source.Groups} {st : Bool}

/-- Where a capture of a core tree comes from. -/
def headingOrigin (h : Heading) : Origin :=
  if h.hidden then .copy h.number else .group h.number

/-- Where the captures of a core tree come from, in opening order. -/
def writtenOrigins (root : Core.Node) : List Origin :=
  root.headings.map headingOrigin

/-! ## Layouts of numberings -/

/-- The layout with one more capture taken into account. -/
def layoutStep (n : Numbering) (l : CaptureLayout) (x : Nat × CaptureEntry) : CaptureLayout :=
  if x.2.hidden then
    match x.2.origin.bind n.primary? with
    | some destination => (l.hide x.1).transfer destination x.1
    | none => l.hide x.1
  else l

theorem layout_eq (n : Numbering) : n.layout = n.entries.foldl (layoutStep n) {} := rfl

theorem mem_hidden_layoutStep :
    i ∈ (layoutStep n l x).hidden ↔ (i = x.1 ∧ x.2.hidden) ∨ i ∈ l.hidden := by
  unfold layoutStep
  split
  next hh =>
    split
    · rw [CaptureLayout.hidden_transfer, CaptureLayout.mem_hidden_hide, hh]
      simp
    · rw [CaptureLayout.mem_hidden_hide, hh]
      simp
  next hh => simp [hh]

theorem reports_layoutStep :
    (layoutStep n l x).Reports d s ↔
      (s = x.1 ∧ x.2.hidden ∧ x.2.origin.bind n.primary? = some d) ∨ l.Reports d s := by
  unfold layoutStep
  split
  next hh =>
    split
    next e he =>
      rw [CaptureLayout.reports_transfer, CaptureLayout.reports_hide, he, hh, Option.some_inj,
        eq_comm (a := d), and_comm]
      simp
    next he => simp [he]
  next hh => simp [hh]

theorem ascending_layoutStep (h : l.Ascending) (x : Nat × CaptureEntry) :
    (layoutStep n l x).Ascending := by
  unfold layoutStep
  split
  · split
    · exact h.hide.transfer
    · exact h.hide
  · exact h

theorem mem_hidden_layout : i ∈ n.layout.hidden ↔ ∃ e, (i, e) ∈ n.entries ∧ e.hidden := by
  have hfold : ∀ (xs : List (Nat × CaptureEntry)) (l : CaptureLayout),
      i ∈ (xs.foldl (layoutStep n) l).hidden ↔ (∃ e, (i, e) ∈ xs ∧ e.hidden) ∨ i ∈ l.hidden := by
    intro xs
    induction xs with
    | nil => simp
    | cons x xs ih =>
      obtain ⟨j, e⟩ := x
      intro l
      rw [List.foldl_cons, ih, mem_hidden_layoutStep]
      simp only [List.mem_cons, Prod.mk.injEq]
      grind
  rw [layout_eq, hfold]
  simp

theorem reports_layout : n.layout.Reports d s ↔
    ∃ e, (s, e) ∈ n.entries ∧ e.hidden ∧ e.origin.bind n.primary? = some d := by
  have hfold : ∀ (xs : List (Nat × CaptureEntry)) (l : CaptureLayout),
      (xs.foldl (layoutStep n) l).Reports d s ↔
        (∃ e, (s, e) ∈ xs ∧ e.hidden ∧ e.origin.bind n.primary? = some d) ∨ l.Reports d s := by
    intro xs
    induction xs with
    | nil => simp
    | cons x xs ih =>
      obtain ⟨j, e⟩ := x
      intro l
      rw [List.foldl_cons, ih, reports_layoutStep]
      simp only [List.mem_cons, Prod.mk.injEq]
      grind
  have hempty : ¬ (({} : CaptureLayout).Reports d s) := by
    rintro ⟨sources, hmem, -⟩
    cases hmem
  rw [layout_eq, hfold, or_iff_left hempty]

theorem ascending_layout : n.layout.Ascending := by
  have hfold : ∀ (xs : List (Nat × CaptureEntry)) (l : CaptureLayout), l.Ascending →
      (xs.foldl (layoutStep n) l).Ascending := by
    intro xs
    induction xs with
    | nil => exact fun _ h => h
    | cons x xs ih => exact fun l h => ih _ (ascending_layoutStep h x)
  exact hfold _ _ CaptureLayout.ascending_empty

/-- The primary index of a group is the index of a visible capture of it. -/
theorem of_primary? (h : n.primary? g = some d) :
    ∃ e, (d, e) ∈ n.entries ∧ e.number = g ∧ e.hidden = false := by
  obtain ⟨⟨i, e⟩, hmem, hi⟩ := List.exists_of_findSome?_eq_some h
  dsimp only at hi
  split at hi
  next hc =>
    cases hi
    rw [Bool.and_eq_true, decide_eq_true_eq, Bool.not_eq_true'] at hc
    exact ⟨e, hmem, hc⟩
  next => cases hi

theorem primary?_isSome (hmem : (d, e) ∈ n.entries) (hg : e.number = g) (hv : e.hidden = false) :
    ∃ i, n.primary? g = some i := by
  cases h : n.primary? g with
  | some i => exact ⟨i, rfl⟩
  | none =>
    have hnot := List.findSome?_eq_none_iff.1 h (d, e) hmem
    simp [hg, hv] at hnot

/-! ## Origins of captures -/

/-- What is remembered of a capture. -/
def entryOf (h : Heading) : CaptureEntry := ⟨h.number, h.hidden, h.origin⟩

theorem entries_of (root : Core.Node) :
    (Numbering.of root).entries = (root.headings.zipIdx 1).map fun x => (x.2, entryOf x.1) := by
  have hentry : ∀ n : Core.Node, Numbering.entry? n = n.heading?.map entryOf := by
    intro n
    cases n <;> rfl
  rw [Numbering.of, funext hentry, ← List.map_filterMap, ← Core.Node.headings]
  refine List.ext_getElem (by simp) fun i hi hi' => ?_
  simp [Nat.add_comm]

/-- A capture has an entry exactly if it has a heading. -/
theorem mem_entries_of :
    (i, e) ∈ (Numbering.of root).entries ↔
      ∃ h, (0 < i ∧ root.headings[i - 1]? = some h) ∧ entryOf h = e := by
  rw [entries_of, List.mem_map]
  constructor
  · rintro ⟨⟨h, j⟩, hmem, heq⟩
    obtain ⟨rfl, rfl⟩ := Prod.mk.inj heq
    obtain ⟨hle, hget⟩ := List.mk_mem_zipIdx_iff_le_and_getElem?_sub.1 hmem
    exact ⟨h, ⟨hle, hget⟩, rfl⟩
  · rintro ⟨h, ⟨hi, hget⟩, rfl⟩
    exact ⟨(h, i), List.mk_mem_zipIdx_iff_le_and_getElem?_sub.2 ⟨hi, hget⟩, rfl⟩

theorem originAt_writtenOrigins {o : Origin} :
    OriginAt (writtenOrigins root) i o ↔
      ∃ h, (0 < i ∧ root.headings[i - 1]? = some h) ∧ headingOrigin h = o := by
  rw [OriginAt, writtenOrigins, List.getElem?_map]
  simp only [Option.map_eq_some_iff]
  constructor
  · rintro ⟨hi, h, hget, ho⟩
    exact ⟨h, ⟨hi, hget⟩, ho⟩
  · rintro ⟨h, ⟨hi, hget⟩, ho⟩
    exact ⟨hi, h, hget, ho⟩

theorem headingOrigin_eq_group : headingOrigin h = .group g ↔ h.hidden = false ∧ h.number = g := by
  unfold headingOrigin
  split <;> simp_all

theorem headingOrigin_eq_copy : headingOrigin h = .copy g ↔ h.hidden ∧ h.number = g := by
  unfold headingOrigin
  split <;> simp_all

theorem isGroup_headingOrigin : (headingOrigin h).isGroup = !h.hidden := by
  unfold headingOrigin
  split <;> simp_all [Origin.isGroup]

theorem map_fst_toList (groups : Source.Groups) :
    groups.toList.map (·.1) = List.range' 1 groups.count := by
  rw [Source.Groups.toList, List.map_map]
  refine List.ext_getElem (by simp [Source.Groups.count]) fun i hi hi' => ?_
  simp [Nat.add_comm]

/-- The captures of a lowered pattern come from the groups of the source. -/
theorem ofSource_writtenOrigins {groups : Source.Groups} {st : Bool}
    (hl : Core.Lowered (groups.toList.map (·.1)) [] false groups.toList false st root) :
    OfSource groups.count (writtenOrigins root) := by
  have hnumbers := map_fst_toList groups
  refine ⟨?_, fun g hg => ?_⟩
  · have hvisible := congrArg (List.map (·.1)) hl.visible
    rw [if_neg Bool.false_ne_true, hnumbers, List.map_map] at hvisible
    rw [← hvisible, writtenOrigins, List.filter_map, List.map_map]
    have hfilter : root.headings.filter ((·.isGroup) ∘ headingOrigin)
        = root.headings.filter (!·.hidden) :=
      List.filter_congr fun h _ => isGroup_headingOrigin
    rw [hfilter]
    refine List.map_congr_left fun h hmem => ?_
    have hv : h.hidden = false := by simpa using (List.mem_filter.1 hmem).2
    exact headingOrigin_eq_group.2 ⟨hv, rfl⟩
  · obtain ⟨h, hmem, ho⟩ := List.mem_map.1 hg
    obtain ⟨hh, rfl⟩ := headingOrigin_eq_copy.1 ho
    have hknown := (hl.copies h hmem).2 hh
    rw [hnumbers, List.mem_range'_1] at hknown
    omega

/-- The primary capture of a group is its visible one. -/
theorem primary?_eq_some_iff {n : Nat} (hsource : OfSource n (writtenOrigins root)) :
    (Numbering.of root).primary? g = some d ↔
      OriginAt (writtenOrigins root) d (.group g) := by
  have hgroup : ∀ {i}, (Numbering.of root).primary? g = some i →
      OriginAt (writtenOrigins root) i (.group g) := by
    intro i hi
    obtain ⟨e, hmem, hnumber, hv⟩ := of_primary? hi
    obtain ⟨h, hget, rfl⟩ := mem_entries_of.1 hmem
    exact originAt_writtenOrigins.2 ⟨h, hget, headingOrigin_eq_group.2 ⟨hv, hnumber⟩⟩
  refine ⟨hgroup, fun hd => ?_⟩
  obtain ⟨h, hget, ho⟩ := originAt_writtenOrigins.1 hd
  obtain ⟨hv, hnumber⟩ := headingOrigin_eq_group.1 ho
  obtain ⟨i, hi⟩ := primary?_isSome (mem_entries_of.2 ⟨h, hget, rfl⟩) hnumber hv
  rw [hi, hsource.group_unique (hgroup hi) hd]

/-- **The layout of a written pattern says where its captures come from.** -/
theorem describes_layout
    (hl : Core.Lowered (groups.toList.map (·.1)) [] false groups.toList false st root) :
    Describes (Numbering.of root).layout (writtenOrigins root) := by
  have hprimary := fun g d => primary?_eq_some_iff (ofSource_writtenOrigins hl) (g := g) (d := d)
  refine ⟨ascending_layout, fun i => ?_, fun d s => ?_⟩
  · rw [mem_hidden_layout]
    constructor
    · rintro ⟨e, hmem, hh⟩
      obtain ⟨h, hget, rfl⟩ := mem_entries_of.1 hmem
      refine ⟨_, originAt_writtenOrigins.2 ⟨h, hget, rfl⟩, ?_⟩
      rw [isGroup_headingOrigin]
      simpa [entryOf] using hh
    · rintro ⟨o, ho, hg⟩
      obtain ⟨h, hget, rfl⟩ := originAt_writtenOrigins.1 ho
      rw [isGroup_headingOrigin, Bool.not_eq_false'] at hg
      exact ⟨_, mem_entries_of.2 ⟨h, hget, rfl⟩, hg⟩
  · rw [reports_layout]
    constructor
    · rintro ⟨e, hmem, hh, hd⟩
      obtain ⟨h, hget, rfl⟩ := mem_entries_of.1 hmem
      have hh : h.hidden := hh
      have horigin := (hl.copies h (List.mem_of_getElem? hget.2)).1
      rw [if_pos hh] at horigin
      have hd : h.origin.bind (Numbering.of root).primary? = some d := hd
      rw [horigin] at hd
      exact ⟨h.number, (hprimary _ _).1 hd,
        originAt_writtenOrigins.2 ⟨h, hget, headingOrigin_eq_copy.2 ⟨hh, rfl⟩⟩⟩
    · rintro ⟨g, hd, hs⟩
      obtain ⟨h, hget, ho⟩ := originAt_writtenOrigins.1 hs
      obtain ⟨hh, rfl⟩ := headingOrigin_eq_copy.1 ho
      have horigin := (hl.copies h (List.mem_of_getElem? hget.2)).1
      rw [if_pos hh] at horigin
      refine ⟨_, mem_entries_of.2 ⟨h, hget, rfl⟩, hh, ?_⟩
      show h.origin.bind (Numbering.of root).primary? = some d
      rw [horigin]
      exact (hprimary _ _).2 hd

/-! ## Names -/

/-- The names that captures are given after captures with the names `seen`: a name is given to the
first capture that has it. -/
def firstUses (seen : List (Option String)) : List (Option String) → List (Option (List Char))
  | [] => []
  | name :: names =>
    (if name ∈ seen then none else name.map (·.toList)) :: firstUses (seen ++ [name]) names

theorem getElem?_firstUses {names seen : List (Option String)} {j : Nat} {name : Option String}
    (h : names[j]? = some name) : (firstUses seen names)[j]?
      = some (if name ∈ seen ++ names.take j then none else name.map (·.toList)) := by
  induction names generalizing seen j with
  | nil => simp at h
  | cons first names ih =>
    cases j with
    | zero =>
      cases h
      simp [firstUses]
    | succ j =>
      rw [firstUses, List.getElem?_cons_succ, ih h, List.take_succ_cons, List.append_assoc,
        List.singleton_append]

/-- The groups of the source, with the names that their captures are given. -/
def sourceMarks (groups : Source.Groups) : List (Origin × Option (List Char)) :=
  ((List.range' 1 groups.count).map .group).zip (firstUses [] groups.names)

theorem title_of_visible {h : Heading} (hv : h.hidden = false) (seen : List Heading) :
    h.title seen = if h.name ∈ (seen.filter (!·.hidden)).map (·.name) then none
      else h.name.map (·.toList) := by
  unfold Heading.title
  rw [hv]
  cases hn : h.name with
  | none => simp
  | some s =>
    have hiff : seen.any (fun g => !g.hidden && g.name == some s) = true ↔
        some s ∈ (seen.filter (!·.hidden)).map (·.name) := by
      simp [and_assoc]
    simp only [hiff, Option.map_some]

/-- The visible captures are given names by first use. -/
theorem groupMarks_headings (hs seen : List Heading) :
    groupMarks (hs.map headingOrigin) (Core.titles seen hs)
      = ((hs.filter (!·.hidden)).map (.group ·.number)).zip
          (firstUses ((seen.filter (!·.hidden)).map (·.name))
            ((hs.filter (!·.hidden)).map (·.name))) := by
  induction hs generalizing seen with
  | nil => rfl
  | cons h hs ih =>
    have hstep := ih (seen ++ [h])
    rw [groupMarks] at hstep ⊢
    rw [List.map_cons, Core.titles, List.zip_cons_cons, List.filter_cons, List.filter_cons,
      isGroup_headingOrigin, hstep]
    cases hh : h.hidden with
    | true => simp [hh]
    | false =>
      have ho : headingOrigin h = .group h.number := headingOrigin_eq_group.2 ⟨hh, rfl⟩
      simp [hh, firstUses, ho, title_of_visible hh]

theorem groupMarks_writtenOrigins
    (hl : Core.Lowered (groups.toList.map (·.1)) [] false groups.toList false st root) :
    groupMarks (writtenOrigins root) (Core.titles [] root.headings) = sourceMarks groups := by
  have hvisible := hl.visible
  rw [if_neg Bool.false_ne_true] at hvisible
  have hnumbers := congrArg (List.map fun x => Origin.group x.1) hvisible
  have hnames := congrArg (List.map (·.2)) hvisible
  rw [List.map_map] at hnumbers hnames
  rw [writtenOrigins, groupMarks_headings, sourceMarks, ← map_fst_toList, List.map_map]
  have hsnd : groups.toList.map (·.2) = groups.names := by
    rw [Source.Groups.toList, List.map_map]
    exact List.ext_getElem (by simp) fun i hi hi' => by simp
  rw [List.filter_nil, List.map_nil, ← hsnd]
  exact congrArg₂ List.zip hnumbers (congrArg (firstUses []) hnames)

/-! ## Written patterns -/

section

variable {o : WriteOptions} {text : Text} {ps : List Phrase}

theorem titles_writtenAs (hps : WrittenAs o root text ps) :
    (phraseTokens ps).filterMap (·.captureName?) = Core.titles [] root.headings := by
  rw [← (counts_tallyAll ps hps.legible.wellFormed).titles, hps.tally]
  rfl

theorem captureCount_writtenAs (hps : WrittenAs o root text ps) :
    captureCount (phraseTokens ps) = root.headings.length := by
  rw [captureCount, titles_writtenAs hps, Core.length_titles]

/-- **A written pattern is a tracked draft.** -/
theorem tracked_written
    (hl : Core.Lowered (groups.toList.map (·.1)) [] false groups.toList false st root)
    (hps : WrittenAs o root text ps) :
    Tracked groups.count (sourceMarks groups) ⟨text, (Numbering.of root).layout⟩ ps
      (writtenOrigins root) where
  text := hps.text
  coherent := ⟨hps.legible, by rw [captureCount_writtenAs hps]; exact hps.references⟩
  length := by rw [captureCount_writtenAs hps, writtenOrigins, List.length_map]
  source := ofSource_writtenOrigins hl
  describes := describes_layout hl
  marks := by rw [titles_writtenAs hps, groupMarks_writtenOrigins hl]

/-- The marker of a written pattern is inside the region that it names. -/
theorem recursesInside_written
    (hl : Core.Lowered (groups.toList.map (·.1)) [] false groups.toList false st root)
    (hps : WrittenAs o root text ps) (hsize : captureCount (phraseTokens ps) < 2 ^ 64) :
    RecursesInside o.recursionLimit ps := by
  have hw := hps.legible.wellFormed
  have hcounts := (counts_tallyAll ps hw).markers
  have hmarkers := congrArg Tally.markers hps.tally
  rw [walkTally] at hmarkers
  have hcounted := hl.counted
  match hrec : root.recursions with
  | [] =>
    rw [hmarkers, hrec, List.map_nil, List.map_nil] at hcounts
    exact .inl (List.map_eq_nil_iff.1 hcounts.symm)
  | _ :: _ :: _ =>
    rw [hrec] at hcounted
    cases st <;> simp at hcounted
  | [(target, around)] =>
    rw [hmarkers, hrec, List.map_singleton, List.map_singleton] at hcounts
    obtain ⟨marker, hmarker, hkind⟩ := List.map_eq_singleton_iff.1 hcounts.symm
    have hcut : ∃ region r, Cut ps marker region r ∧ FindsRegion ps marker r := by
      by_cases htarget : target = 0
      · rw [htarget, markerToken, if_pos rfl] at hkind
        exact exists_cut_whole hw hmarker hkind
      -- the target is the visible capture of a group around the marker
      · rcases hl.anchored (target, around) (by simp [hrec]) with hzero | hmem | ⟨i, hi, h, hget, hg⟩
        · exact absurd hzero htarget
        · cases hmem
        have horigin : OriginAt (writtenOrigins root) (i + 1) (.group target) :=
          originAt_writtenOrigins.2 ⟨h, ⟨Nat.succ_pos i, hget⟩, headingOrigin_eq_group.2 hg.symm⟩
        have hprimary := (primary?_eq_some_iff (ofSource_writtenOrigins hl)).2 horigin
        have hlt : i + 1 < 2 ^ 64 := by
          have hle := horigin.le
          rw [writtenOrigins, List.length_map, ← captureCount_writtenAs hps] at hle
          omega
        have hk : marker.kind = .groupRecursion (.number (i + 1)) o.recursionLimit := by
          rw [hkind, markerToken, if_neg htarget, Writing.of]
          dsimp only
          rw [hprimary, Option.getD_some, groupNumbered, if_pos hlt]
        refine exists_cut_group hmarker hk ?_
        refine captureAround_phraseTokens ps hw (marker.kind, around) ?_ i hi
        rw [hmarkers, hrec, List.map_singleton, hkind]
        exact List.mem_singleton.2 rfl
    obtain ⟨region, r, hc, hf⟩ := hcut
    refine .inr ⟨marker, region, r, hc, hf, ?_⟩
    rw [hc.depth, hkind, markerToken]
    split <;> rfl

end

end Diglot.Reduction
