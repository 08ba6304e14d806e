import Diglot.Proofs.CaptureLayout
import Diglot.Proofs.Reduction.Unfolded
import Diglot.Proofs.Reduction.Unrolled

/-!
# Where captures come from

Every capture of a written pattern is a group of the source, a copy of one, or was added for an
atomic group. A layout describes the origins of the captures: those that are no groups of the source
are hidden, and copies are reported under the groups that they copy. Each reduction says where the
captures of the new pattern come from, and its layout describes that.
-/

namespace Diglot.Reduction

open Emitted

variable {g i j s d c n count : Nat} {ks order : List CaptureKey} {ts : List Token} {marker : Token}
  {r : Recursion} {ps region : List Phrase} {l : CaptureLayout} {titles : List (Option (List Char))}

/-- Where a capture comes from. -/
inductive Origin where
  /-- It is a group of the source. -/
  | group (g : Nat)
  /-- It is a copy of a group of the source. -/
  | copy (g : Nat)
  /-- It was added for an atomic group. -/
  | added
  deriving DecidableEq, Repr

namespace Origin

/-- Whether it is a group of the source. -/
def isGroup : Origin → Bool
  | group _ => true
  | _ => false

/-- The origin of a copy of a capture. -/
def copied : Origin → Origin
  | group g | copy g => copy g
  | added => added

@[simp] theorem isGroup_copied (o : Origin) : o.copied.isGroup = false := by
  cases o <;> rfl

variable {o : Origin}

theorem exists_of_isGroup (h : o.isGroup) : ∃ g, o = group g := by
  cases o with
  | group g => exact ⟨g, rfl⟩
  | copy g => cases h
  | added => cases h

theorem copied_eq_copy : o.copied = copy g ↔ o = group g ∨ o = copy g := by
  cases o <;> simp [copied]

end Origin

/-- The origin of the capture with number `i`. -/
def OriginAt (os : List Origin) (i : Nat) (o : Origin) : Prop :=
  0 < i ∧ os[i - 1]? = some o

variable {os : List Origin}

theorem OriginAt.unique {o o' : Origin} (h : OriginAt os i o) (h' : OriginAt os i o') : o = o' :=
  Option.some.inj (h.2.symm.trans h'.2)

theorem exists_originAt (os : List Origin) (h : 0 < i) (hi : i ≤ os.length) :
    ∃ o, OriginAt os i o :=
  ⟨_, h, List.getElem?_eq_getElem (by omega)⟩

theorem OriginAt.le {o : Origin} (h : OriginAt os i o) : i ≤ os.length := by
  obtain ⟨hlt, -⟩ := List.getElem?_eq_some_iff.1 h.2
  have := h.1
  omega

/-- The origins are those of a source with `n` groups: each group is there once, in order, and
copies are of these groups. -/
structure OfSource (n : Nat) (os : List Origin) : Prop where
  groups : os.filter (·.isGroup) = (List.range' 1 n).map .group
  copies : ∀ g, .copy g ∈ os → 0 < g ∧ g ≤ n

namespace OfSource

theorem group_unique (h : OfSource n os) (hi : OriginAt os i (.group g))
    (hj : OriginAt os j (.group g)) : i = j := by
  have hnodup : (os.filter (·.isGroup)).Pairwise (· ≠ ·) := by
    rw [h.groups]
    exact (List.nodup_range' ..).map fun _ _ heq => Origin.group.inj heq
  rw [List.pairwise_filter, List.pairwise_iff_getElem] at hnodup
  obtain ⟨hlt, hi'⟩ := List.getElem?_eq_some_iff.1 hi.2
  obtain ⟨hlt', hj'⟩ := List.getElem?_eq_some_iff.1 hj.2
  have hpos := hi.1
  have hpos' := hj.1
  rcases Nat.lt_trichotomy (i - 1) (j - 1) with hij | hij | hij
  · exact absurd (hi'.trans hj'.symm)
      (hnodup _ _ hlt hlt' hij (by rw [hi']; rfl) (by rw [hj']; rfl))
  · omega
  · exact absurd (hj'.trans hi'.symm)
      (hnodup _ _ hlt' hlt hij (by rw [hj']; rfl) (by rw [hi']; rfl))

theorem exists_group (h : OfSource n os) (hg : 0 < g) (hn : g ≤ n) :
    ∃ i, OriginAt os i (.group g) := by
  have hmem : Origin.group g ∈ os.filter (·.isGroup) := by
    rw [h.groups]
    exact List.mem_map.2 ⟨g, List.mem_range'_1.2 (by omega), rfl⟩
  obtain ⟨i, hi⟩ := List.getElem?_of_mem (List.mem_filter.1 hmem).1
  exact ⟨i + 1, by omega, hi⟩

/-- Every copy has a group that it copies. -/
theorem exists_of_copy (h : OfSource n os) (hs : OriginAt os s (.copy g)) :
    ∃ d, OriginAt os d (.group g) := by
  obtain ⟨hg, hn⟩ := h.copies g (List.mem_of_getElem? hs.2)
  exact h.exists_group hg hn

end OfSource

/-- The layout says where the captures come from. -/
structure Describes (l : CaptureLayout) (os : List Origin) : Prop where
  ascending : l.Ascending
  hidden : ∀ i, i ∈ l.hidden ↔ ∃ o, OriginAt os i o ∧ o.isGroup = false
  reports : ∀ d s, l.Reports d s ↔ ∃ g, OriginAt os d (.group g) ∧ OriginAt os s (.copy g)

namespace Describes

theorem not_mem_hidden (h : Describes l os) (hi : OriginAt os i (.group g)) : i ∉ l.hidden := by
  rw [h.hidden]
  rintro ⟨o, ho, hg⟩
  rw [← hi.unique ho] at hg
  cases hg

/-- A capture is reported where its group is: a copy of it would be reported there. -/
theorem destination?_eq (h : Describes l os) (ho : OfSource n os) {o : Origin}
    (hd : OriginAt os d (.group g)) (hs : OriginAt os s o) (hc : o.copied = .copy g) :
    Recursion.destination? l s = some d := by
  unfold Recursion.destination?
  rcases Origin.copied_eq_copy.1 hc with rfl | rfl
  · obtain rfl := ho.group_unique hd hs
    rw [CaptureLayout.destinationOf_eq_none, if_neg]
    · simpa using h.not_mem_hidden hd
    · intro d' hr
      obtain ⟨g', -, hcopy⟩ := (h.reports d' d).1 hr
      cases hcopy.unique hd
  · rw [CaptureLayout.destinationOf_eq_some ((h.reports d s).2 ⟨g, hd, hs⟩)]
    intro d' hr
    obtain ⟨g', hd', hs'⟩ := (h.reports d' s).1 hr
    cases hs'.unique hs
    exact ho.group_unique hd' hd

/-- Where a capture is reported, the group stands that it is or copies. -/
theorem of_destination? (h : Describes l os) {o : Origin} (hs : OriginAt os s o)
    (hd : Recursion.destination? l s = some d) :
    ∃ g, OriginAt os d (.group g) ∧ o.copied = .copy g := by
  unfold Recursion.destination? at hd
  split at hd
  next d' hd' =>
    cases hd
    obtain ⟨g, hdest, hsource⟩ := (h.reports d s).1 (CaptureLayout.reports_of_destinationOf hd')
    cases hsource.unique hs
    exact ⟨g, hdest, rfl⟩
  next =>
    split at hd
    next => cases hd
    next hnot =>
      cases hd
      have hgroup : o.isGroup := by
        rw [← Bool.not_eq_false]
        exact fun hg => hnot (by simpa using (h.hidden _).2 ⟨o, hs, hg⟩)
      obtain ⟨g, rfl⟩ := Origin.exists_of_isGroup hgroup
      exact ⟨g, hs, rfl⟩

end Describes

/-! ## Captures after a reduction -/

/-- Where a capture comes from after a reduction, if the captures before came from `os`. -/
def originOf (os : List Origin) : CaptureKey → Origin
  | .existing i 0 => os.getD (i - 1) .added
  | .existing i _ => (os.getD (i - 1) .added).copied
  | .injected _ => .added

theorem originAt_map_originOf (h : order.Nodup) {o : Origin} :
    OriginAt (order.map (originOf os)) j o ↔
      ∃ key, numberOf? order key = some j ∧ originOf os key = o := by
  constructor
  · rintro ⟨hj, hget⟩
    rw [List.getElem?_map, Option.map_eq_some_iff] at hget
    obtain ⟨key, hkey, ho⟩ := hget
    have hnumber := numberOf?_eq_some h hkey
    rw [Nat.sub_add_cancel hj] at hnumber
    exact ⟨key, hnumber, ho⟩
  · rintro ⟨key, hnumber, ho⟩
    refine ⟨(numberOf?_le hnumber).1, ?_⟩
    rw [List.getElem?_map, getElem?_of_numberOf? hnumber, Option.map_some, ho]

theorem originAt_iff (hlength : os.length = count) {o : Origin} :
    OriginAt os i o ↔ (0 < i ∧ i ≤ count) ∧ os.getD (i - 1) .added = o := by
  constructor
  · intro h
    refine ⟨⟨h.1, hlength ▸ h.le⟩, ?_⟩
    rw [List.getD_eq_getElem?_getD, h.2, Option.getD_some]
  · rintro ⟨⟨hi, hle⟩, ho⟩
    obtain ⟨o', ho'⟩ := exists_originAt os hi (by omega)
    rw [List.getD_eq_getElem?_getD, ho'.2, Option.getD_some] at ho
    exact ho ▸ ho'

theorem mem_of_numberOf? {key : CaptureKey} (h : numberOf? order key = some j) : key ∈ order :=
  List.mem_of_getElem? (getElem?_of_numberOf? h)

/-- The origin of a capture that is kept. -/
theorem Reorders.originAt (hr : Reorders count order) (hlength : os.length = count)
    (h : numberOf? order (.existing i c) = some j) : OriginAt os i (os.getD (i - 1) .added) :=
  (originAt_iff hlength).2 ⟨hr.bounded i c (mem_of_numberOf? h), rfl⟩

/-- The groups of the source are captures that were there before. -/
theorem originAt_group (hr : Reorders count order) (hlength : os.length = count) :
    OriginAt (order.map (originOf os)) d (.group g) ↔
      ∃ i, numberOf? order (.existing i 0) = some d ∧ OriginAt os i (.group g) := by
  rw [originAt_map_originOf hr.nodup]
  constructor
  · rintro ⟨key, hnumber, ho⟩
    match key, ho with
    | .existing i 0, ho => exact ⟨i, hnumber, ho ▸ hr.originAt hlength hnumber⟩
    | .existing i (c + 1), ho =>
      cases (congrArg Origin.isGroup ho).symm.trans (Origin.isGroup_copied _)
  · rintro ⟨i, hnumber, ho⟩
    exact ⟨_, hnumber, ((originAt_iff hlength).1 ho).2⟩

/-- A copy was there before, or copies a capture that was. -/
theorem originAt_copy (hr : Reorders count order) (hlength : os.length = count) :
    OriginAt (order.map (originOf os)) s (.copy g) ↔
      (∃ i, numberOf? order (.existing i 0) = some s ∧ OriginAt os i (.copy g)) ∨
      ∃ i c o, numberOf? order (.existing i (c + 1)) = some s ∧ OriginAt os i o ∧
        o.copied = .copy g := by
  rw [originAt_map_originOf hr.nodup]
  constructor
  · rintro ⟨key, hnumber, ho⟩
    match key, ho with
    | .existing i 0, ho => exact .inl ⟨i, hnumber, ho ▸ hr.originAt hlength hnumber⟩
    | .existing i (c + 1), ho =>
      exact .inr ⟨i, c, _, hnumber, hr.originAt hlength hnumber, ho⟩
  · rintro (⟨i, hnumber, ho⟩ | ⟨i, c, o, hnumber, ho, hc⟩)
    · exact ⟨_, hnumber, ((originAt_iff hlength).1 ho).2⟩
    · refine ⟨_, hnumber, ?_⟩
      rw [originOf, ((originAt_iff hlength).1 ho).2, hc]
      omega

/-- What is no group of the source was none before, or is new. -/
theorem originAt_not_group (hr : Reorders count order) (hlength : os.length = count) :
    (∃ o, OriginAt (order.map (originOf os)) j o ∧ o.isGroup = false) ↔
      (∃ i o, numberOf? order (.existing i 0) = some j ∧ OriginAt os i o ∧ o.isGroup = false) ∨
      ∃ key, numberOf? order key = some j ∧ key.isKept = false := by
  simp only [originAt_map_originOf hr.nodup]
  constructor
  · rintro ⟨o, ⟨key, hnumber, rfl⟩, hg⟩
    match key, hg with
    | .existing i 0, hg => exact .inl ⟨i, _, hnumber, hr.originAt hlength hnumber, hg⟩
    | .existing i (c + 1), hg => exact .inr ⟨_, hnumber, rfl⟩
    | .injected m, hg => exact .inr ⟨_, hnumber, rfl⟩
  · rintro (⟨i, o, hnumber, ho, hg⟩ | ⟨key, hnumber, hk⟩)
    · exact ⟨o, ⟨_, hnumber, ((originAt_iff hlength).1 ho).2⟩, hg⟩
    · match key, hk with
      | .existing i (c + 1), _ => exact ⟨_, ⟨_, hnumber, rfl⟩, Origin.isGroup_copied _⟩
      | .injected m, _ => exact ⟨_, ⟨_, hnumber, rfl⟩, rfl⟩

/-! ## Layouts after a reduction -/

theorem mem_hidden_carryOver (h : Describes l os) : j ∈ (carryOver order l).hidden ↔
    ∃ i o, numberOf? order (.existing i 0) = some j ∧ OriginAt os i o ∧ o.isGroup = false := by
  rw [carryOver, CaptureLayout.mem_hidden_renumber]
  simp only [h.hidden]
  constructor
  · rintro ⟨i, ⟨o, ho, hg⟩, hnumber⟩
    exact ⟨i, o, hnumber, ho, hg⟩
  · rintro ⟨i, o, hnumber, ho, hg⟩
    exact ⟨i, ⟨o, ho, hg⟩, hnumber⟩

theorem reports_carryOver (h : Describes l os) : (carryOver order l).Reports d s ↔
    ∃ g i k, (numberOf? order (.existing i 0) = some d ∧ OriginAt os i (.group g)) ∧
      numberOf? order (.existing k 0) = some s ∧ OriginAt os k (.copy g) := by
  rw [carryOver, CaptureLayout.reports_renumber]
  simp only [h.reports]
  constructor
  · rintro ⟨i, k, ⟨g, hi, hk⟩, hd, hs⟩
    exact ⟨g, i, k, ⟨hd, hi⟩, hs, hk⟩
  · rintro ⟨g, i, k, ⟨hd, hi⟩, hs, hk⟩
    exact ⟨i, k, ⟨g, hi, hk⟩, hd, hs⟩

section

open Recursion

variable {old : CaptureLayout} {key : CaptureKey}

/-- The number of the capture under which copies of capture `i` are reported. -/
def reportNumber? (order : List CaptureKey) (old : CaptureLayout) (i : Nat) : Option Nat :=
  (destination? old i).bind fun d => numberOf? order (.existing d 0)

theorem hideCopy_cases (order : List CaptureKey) (old l : CaptureLayout) (i c : Nat) :
    (numberOf? order (.existing i c) = none ∧ hideCopy order old l (.existing i c) = l) ∨
    ∃ j, numberOf? order (.existing i c) = some j ∧
      ((reportNumber? order old i = none ∧ hideCopy order old l (.existing i c) = l.hide j) ∨
        ∃ d, reportNumber? order old i = some d ∧
          hideCopy order old l (.existing i c) = (l.hide j).transfer d j) := by
  unfold hideCopy reportNumber?
  cases numberOf? order (.existing i c) with
  | none => exact .inl ⟨rfl, rfl⟩
  | some j =>
    refine .inr ⟨j, rfl, ?_⟩
    dsimp only
    cases (destination? old i).bind fun d => numberOf? order (.existing d 0) with
    | none => exact .inl ⟨rfl, rfl⟩
    | some d => exact .inr ⟨d, rfl, rfl⟩

theorem mem_hidden_hideCopy : j ∈ (hideCopy order old l (.existing i c)).hidden ↔
    numberOf? order (.existing i c) = some j ∨ j ∈ l.hidden := by
  rcases hideCopy_cases order old l i c with ⟨hn, h⟩ | ⟨k, hn, ⟨-, h⟩ | ⟨d, -, h⟩⟩ <;> rw [h, hn]
  · simp
  · rw [CaptureLayout.mem_hidden_hide, Option.some_inj, eq_comm]
  · rw [CaptureLayout.hidden_transfer, CaptureLayout.mem_hidden_hide, Option.some_inj, eq_comm]

theorem reports_hideCopy : (hideCopy order old l (.existing i c)).Reports d s ↔
    (numberOf? order (.existing i c) = some s ∧ reportNumber? order old i = some d) ∨
      l.Reports d s := by
  rcases hideCopy_cases order old l i c with ⟨hn, h⟩ | ⟨k, hn, ⟨hr, h⟩ | ⟨e, hr, h⟩⟩ <;> rw [h, hn]
  · simp
  · simp [hr]
  · rw [CaptureLayout.reports_transfer, CaptureLayout.reports_hide, hr, Option.some_inj,
      Option.some_inj, and_comm, eq_comm, eq_comm (a := d)]

theorem ascending_hideCopy (h : l.Ascending) : (hideCopy order old l key).Ascending := by
  cases key with
  | injected m => exact h
  | existing i c =>
    rcases hideCopy_cases order old l i c with ⟨-, h'⟩ | ⟨k, -, ⟨-, h'⟩ | ⟨d, -, h'⟩⟩ <;> rw [h']
    · exact h
    · exact h.hide
    · exact h.hide.transfer

theorem mem_hidden_foldl_hideCopy :
    j ∈ (ks.foldl (hideCopy order old) l).hidden ↔
      (∃ i c, .existing i c ∈ ks ∧ numberOf? order (.existing i c) = some j) ∨ j ∈ l.hidden := by
  induction ks generalizing l with
  | nil => simp
  | cons key ks ih =>
    rw [List.foldl_cons, ih]
    cases key with
    | injected m => simp [hideCopy]
    | existing i c =>
      rw [mem_hidden_hideCopy]
      simp only [List.mem_cons, CaptureKey.existing.injEq]
      grind

theorem reports_foldl_hideCopy :
    (ks.foldl (hideCopy order old) l).Reports d s ↔
      (∃ i c, .existing i c ∈ ks ∧ numberOf? order (.existing i c) = some s ∧
        reportNumber? order old i = some d) ∨ l.Reports d s := by
  induction ks generalizing l with
  | nil => simp
  | cons key ks ih =>
    rw [List.foldl_cons, ih]
    cases key with
    | injected m => simp [hideCopy]
    | existing i c =>
      rw [reports_hideCopy]
      simp only [List.mem_cons, CaptureKey.existing.injEq]
      grind

theorem ascending_foldl_hideCopy (h : l.Ascending) (ks : List CaptureKey) :
    (ks.foldl (hideCopy order old) l).Ascending := by
  induction ks generalizing l with
  | nil => exact h
  | cons key ks ih => exact ih (ascending_hideCopy h)

end

/-- The copies are the captures of the unrolled pattern that are new. -/
theorem Slices.mem_copies (h : Slices ts marker r) :
    .existing i c ∈ r.copies ↔ .existing i c ∈ r.order ∧ 0 < c := by
  rw [h.mem_order, Recursion.copies]
  simp only [List.mem_flatMap, List.mem_range'_1, List.mem_map, CaptureKey.existing.injEq]
  constructor
  · rintro ⟨copy, hcopy, j, hj, rfl, rfl⟩
    exact ⟨⟨j, copy, ⟨rfl, rfl⟩, .inr ⟨hj, by omega, by omega⟩⟩, by omega⟩
  · rintro ⟨⟨j, copy, ⟨rfl, rfl⟩, ⟨rfl, -⟩ | ⟨hi, -, hle⟩⟩, hc⟩
    · omega
    · exact ⟨c, by omega, i, hi, rfl, rfl⟩

/-- **The layout of an unrolled pattern says where its captures come from.** -/
theorem Cut.describes_unroll (h : Cut ps marker region r) (hd : Describes l os) (ho : OfSource n os)
    (hlength : os.length = captureCount (phraseTokens ps)) :
    Describes (r.unroll l).layout (r.order.map (originOf os)) where
  ascending := ascending_foldl_hideCopy CaptureLayout.ascending_renumber _
  hidden j := by
    rw [originAt_not_group h.reorders_order hlength, ← mem_hidden_carryOver hd]
    show j ∈ (r.copies.foldl (Recursion.hideCopy r.order l) (carryOver r.order l)).hidden ↔ _
    rw [mem_hidden_foldl_hideCopy, or_comm]
    refine or_congr_right ⟨?_, ?_⟩
    · rintro ⟨i, c, hmem, hnumber⟩
      refine ⟨_, hnumber, ?_⟩
      obtain ⟨c, rfl⟩ := Nat.exists_eq_add_one.2 (h.mem_copies.1 hmem).2
      rfl
    · rintro ⟨key, hnumber, hkept⟩
      obtain ⟨i, c, rfl, -⟩ := h.mem_order.1 (mem_of_numberOf? hnumber)
      have hpos : 0 < c := by
        rcases c with - | c
        · cases hkept
        · omega
      exact ⟨i, c, h.mem_copies.2 ⟨mem_of_numberOf? hnumber, hpos⟩, hnumber⟩
  reports d s := by
    show (r.copies.foldl (Recursion.hideCopy r.order l) (carryOver r.order l)).Reports d s ↔ _
    rw [reports_foldl_hideCopy, reports_carryOver hd]
    simp only [originAt_group h.reorders_order hlength, originAt_copy h.reorders_order hlength]
    constructor
    · rintro (⟨i, c, hmem, hs, hr⟩ | ⟨g, i, k, hi, hk⟩)
      · obtain ⟨e, he, hnumber⟩ := Option.bind_eq_some_iff.1 hr
        have hi := h.reorders_order.originAt hlength hs
        obtain ⟨g, hgroup, hcopied⟩ := hd.of_destination? hi he
        obtain ⟨c, rfl⟩ := Nat.exists_eq_add_one.2 (h.mem_copies.1 hmem).2
        exact ⟨g, ⟨e, hnumber, hgroup⟩, .inr ⟨i, c, _, hs, hi, hcopied⟩⟩
      · exact ⟨g, ⟨i, hi⟩, .inl ⟨k, hk⟩⟩
    · rintro ⟨g, ⟨i, hi⟩, ⟨k, hk⟩ | ⟨k, c, o, hs, hk, hcopied⟩⟩
      · exact .inr ⟨g, i, k, hi, hk⟩
      · refine .inl ⟨k, c + 1, h.mem_copies.2 ⟨mem_of_numberOf? hs, by omega⟩, hs, ?_⟩
        rw [reportNumber?, hd.destination?_eq ho hi.2 hk hcopied]
        exact hi.1

theorem mem_added {order : List CaptureKey} (hn : order.Nodup) :
    j ∈ (order.zipIdx.filter (·.1.isInjected)).map (·.2 + 1) ↔
      ∃ key, numberOf? order key = some j ∧ key.isInjected := by
  rw [List.mem_map]
  constructor
  · rintro ⟨⟨key, i⟩, hmem, rfl⟩
    obtain ⟨hget, hinjected⟩ := List.mem_filter.1 hmem
    exact ⟨key, numberOf?_eq_some hn (List.mk_mem_zipIdx_iff_getElem?.1 hget), hinjected⟩
  · rintro ⟨key, hnumber, hinjected⟩
    have hget := getElem?_of_numberOf? hnumber
    refine ⟨(key, j - 1), List.mem_filter.2 ⟨List.mk_mem_zipIdx_iff_getElem?.2 hget, hinjected⟩, ?_⟩
    have := (numberOf?_le hnumber).1
    omega

/-- **The layout of an unfolded pattern says where its captures come from.** -/
theorem describes_unfolded (hd : Describes l os)
    (hlength : os.length = captureCount (phraseTokens ps)) :
    Describes (hideAdded (unfoldedOrder ps) (carryOver (unfoldedOrder ps) l))
      ((unfoldedOrder ps).map (originOf os)) := by
  have hr : Reorders (captureCount (phraseTokens ps)) (unfoldedOrder ps) :=
    reorders_unfoldKeys (phraseTokens ps)
  have hnew : ∀ key, (∃ j, numberOf? (unfoldedOrder ps) key = some j) →
      key.isInjected = !key.isKept := fun key ⟨j, hj⟩ =>
    isInjected_unfoldKeys key (mem_of_numberOf? hj)
  refine ⟨CaptureLayout.ascending_renumber.foldl_hide _, fun j => ?_, fun d s => ?_⟩
  · rw [originAt_not_group hr hlength, ← mem_hidden_carryOver hd, hideAdded,
      CaptureLayout.mem_hidden_foldl_hide, mem_added hr.nodup, or_comm]
    refine or_congr_right (exists_congr fun key => and_congr_right fun hj => ?_)
    rw [hnew key ⟨j, hj⟩, Bool.not_eq_true']
  · rw [hideAdded, CaptureLayout.reports_foldl_hide, reports_carryOver hd]
    simp only [originAt_group hr hlength, originAt_copy hr hlength]
    constructor
    · rintro ⟨g, i, k, hi, hk⟩
      exact ⟨g, ⟨i, hi⟩, .inl ⟨k, hk⟩⟩
    · rintro ⟨g, ⟨i, hi⟩, ⟨k, hk⟩ | ⟨k, c, o, hs, -, -⟩⟩
      · exact ⟨g, i, k, hi, hk⟩
      · cases hnew _ ⟨s, hs⟩

/-! ## Groups of the source after a reduction -/

/-- The groups of the source among captures, with the names that these have. -/
def groupMarks (os : List Origin) (titles : List (Option (List Char))) :
    List (Origin × Option (List Char)) :=
  (os.zip titles).filter (·.1.isGroup)

theorem map_fst_groupMarks (h : os.length = titles.length) :
    (groupMarks os titles).map (·.1) = os.filter (·.isGroup) := by
  have hfilter := List.filter_map (f := fun x : Origin × Option (List Char) => x.1)
    (p := Origin.isGroup) (l := os.zip titles)
  rw [List.map_fst_zip (Nat.le_of_eq h)] at hfilter
  exact hfilter.symm

/-- **A reduction keeps the groups of the source**, their order and their names. -/
theorem groupMarks_reordered (hr : Reorders count order) (ho : os.length = count)
    (ht : titles.length = count) :
    groupMarks (order.map (originOf os)) (order.map (titleOf titles)) = groupMarks os titles := by
  let mark (key : CaptureKey) := (originOf os key, titleOf titles key)
  have hkept : ∀ key : CaptureKey, (mark key).1.isGroup
      = ((mark key).1.isGroup && key.isKept) := by
    intro key
    match key with
    | .existing i 0 => exact (Bool.and_true _).symm
    | .existing i (c + 1) => exact (Origin.isGroup_copied _).trans (Bool.and_false _).symm
    | .injected m => rfl
  have hall : ((List.range' 1 count).map (CaptureKey.existing · 0)).map mark = os.zip titles := by
    refine List.ext_getElem (by simp [ho, ht]) fun i hi hi' => ?_
    rw [List.length_zip] at hi'
    simp [mark, originOf, titleOf, List.getD_eq_getElem?_getD, show i < os.length by omega,
      show i < titles.length by omega]
  calc groupMarks (order.map (originOf os)) (order.map (titleOf titles))
    _ = (order.map mark).filter (·.1.isGroup) := by rw [groupMarks, List.zip_map']
    _ = ((order.filter (·.isKept)).map mark).filter (·.1.isGroup) := by
      rw [List.filter_map, List.filter_map, List.filter_filter]
      exact congrArg (List.map mark) (List.filter_congr fun key _ => hkept key)
    _ = groupMarks os titles := by rw [hr.kept, hall, groupMarks]

/-- A reduction leaves origins that are those of the source. -/
theorem OfSource.reordered (h : OfSource n os) (hr : Reorders count order) (ho : os.length = count) :
    OfSource n (order.map (originOf os)) where
  groups := by
    have hmarks := groupMarks_reordered hr ho (List.length_replicate (n := count) (a := none))
    have hfst := congrArg (List.map (·.1)) hmarks
    rw [map_fst_groupMarks (by simp), map_fst_groupMarks (by simp [ho])] at hfst
    rw [hfst, h.groups]
  copies g hg := by
    obtain ⟨j, hj⟩ := List.getElem?_of_mem hg
    rcases (originAt_copy (s := j + 1) hr ho).1 ⟨by omega, hj⟩ with
      ⟨i, -, hi⟩ | ⟨i, c, o, -, hi, hc⟩
    · exact h.copies g (List.mem_of_getElem? hi.2)
    · rcases Origin.copied_eq_copy.1 hc with rfl | rfl
      · have hmem : Origin.group g ∈ os.filter (·.isGroup) :=
          List.mem_filter.2 ⟨List.mem_of_getElem? hi.2, rfl⟩
        rw [h.groups, List.mem_map] at hmem
        obtain ⟨g', hg', heq⟩ := hmem
        have := List.mem_range'_1.1 hg'
        cases heq
        omega
      · exact h.copies g (List.mem_of_getElem? hi.2)

/-! ## Following captures through the reductions -/

/-- The origins of the captures inside a marker that stands for `below` levels, if captures with
these origins open in the region before and after the marker. -/
def holeOrigins (head tail : List Origin) : Nat → List Origin
  | 0 => []
  | below + 1 => head.map (·.copied) ++ (holeOrigins head tail below ++ tail.map (·.copied))

/-- The origins of the captures that numbered tokens open, if the captures of the pattern come from
`os`. -/
def tokenOrigins (os : List Origin) (ts : List NumberedToken) : List Origin :=
  (ts.filterMap (·.capture)).map fun i => os.getD (i - 1) .added

/-- The origins of the captures of the unrolled pattern. -/
def Recursion.origins (r : Recursion) (os : List Origin) : List Origin :=
  tokenOrigins os r.before
    ++ (tokenOrigins os r.head
      ++ (holeOrigins (tokenOrigins os r.head) (tokenOrigins os r.tail) (r.depth - 1)
        ++ tokenOrigins os r.tail)
      ++ tokenOrigins os r.after)

theorem map_originOf_holeKeys (os : List Origin) (head tail : List Nat) (copy below : Nat) :
    (holeKeys head tail copy below).map (originOf os)
      = holeOrigins (head.map fun i => os.getD (i - 1) .added)
          (tail.map fun i => os.getD (i - 1) .added) below := by
  induction below generalizing copy with
  | zero => rfl
  | succ below ih =>
    simp only [holeKeys, holeOrigins, List.map_append, List.map_map, ih]
    rfl

theorem Cut.map_originOf_order (h : Cut ps marker region r) (os : List Origin) :
    r.order.map (originOf os) = r.origins os := by
  simp only [h.order_eq, List.map_append, List.map_map, map_originOf_holeKeys]
  rfl

/-- The origins of the captures of a pattern with these tokens after its atomic groups are
unfolded. -/
def unfoldOrigins : List Origin → List Token → List Origin
  | _, [] => []
  | os, t :: ts =>
    match t.kind with
    | .captureOpen _ => os.take 1 ++ unfoldOrigins (os.drop 1) ts
    | .atomicOpen => .added :: unfoldOrigins os ts
    | _ => unfoldOrigins os ts

theorem map_originOf_unfoldKeys (h : os.length = c + captureCount ts) :
    (unfoldKeys c n ts).map (originOf os) = unfoldOrigins (os.drop c) ts := by
  fun_induction unfoldKeys c n ts with
  | case1 c n => rfl
  | case2 c n t ts name hk ih =>
    have hcount : captureCount (t :: ts) = captureCount ts + 1 := by
      rw [captureCount_cons, Token.captureName?, hk, Nat.add_comm]
      rfl
    rw [hcount] at h
    have hlt : c < os.length := by omega
    have horigin : originOf os (.existing (c + 1) 0) = os[c] := by
      simp [originOf, hlt]
    rw [unfoldOrigins, hk, List.map_cons, ih (by omega), horigin, List.drop_eq_getElem_cons hlt]
    rfl
  | case3 c n t ts hk ih =>
    have hcount : captureCount (t :: ts) = captureCount ts := by
      simp [captureCount_cons, Token.captureName?, hk]
    rw [hcount] at h
    rw [unfoldOrigins, hk, List.map_cons, ih h]
    rfl
  | case4 c n t ts hc ha ih =>
    have hcount : captureCount (t :: ts) = captureCount ts := by
      simp [captureCount_cons, captureName?_eq_none hc]
    rw [hcount] at h
    rw [unfoldOrigins, ih h]
    split
    next name hk => exact absurd hk (hc name)
    next hk => exact absurd hk ha
    next => rfl

end Diglot.Reduction
