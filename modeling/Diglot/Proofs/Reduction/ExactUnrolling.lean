import Diglot.Proofs.Emitted.Rereading
import Diglot.Proofs.Reduction.Origins

/-!
# What unrolling gives

Unrolling a recursion gives the pattern with its levels inside each other, and the text of it scans
to just these tokens (`unrollRecursion_exact`). There is one thing that can go wrong. A copy of a
capture has no name, and if a question mark follows the name, it becomes a part of the parenthesis
that is left (`unrolled_name_before_question`).
-/

namespace Diglot.Reduction

open Emitted

variable {copy i : Nat} {ts head tail : List Token} {follow : List Char} {marker : Token}
  {r : Recursion}

/-! ## Captures of the levels -/

namespace Recursion

/-- The captures of the region from the `copy`-th copy inwards, with `below` levels inside it. -/
def levelCaptures (r : Recursion) : Nat → Nat → List CaptureKey
  | copy, 0 => r.headCaptures.map (.existing · copy) ++ r.tailCaptures.map (.existing · copy)
  | copy, below + 1 =>
    r.headCaptures.map (.existing · copy)
      ++ (r.levelCaptures (copy + 1) below ++ r.tailCaptures.map (.existing · copy))
termination_by structural _ below => below

/-- The captures of the unrolled pattern, level by level. -/
def unrolledCaptures (r : Recursion) : List CaptureKey :=
  r.beforeCaptures.map (.existing · 0)
    ++ (r.levelCaptures 0 (r.depth - 1) ++ r.afterCaptures.map (.existing · 0))

theorem levelCaptures_eq (r : Recursion) (copy below : Nat) :
    r.levelCaptures copy below = r.headCaptures.map (.existing · copy)
      ++ (holeKeys r.headCaptures r.tailCaptures copy below
        ++ r.tailCaptures.map (.existing · copy)) := by
  induction below generalizing copy with
  | zero => rfl
  | succ below ih => rw [levelCaptures, holeKeys, ih]

theorem length_levelCaptures (r : Recursion) (copy below : Nat) :
    (r.levelCaptures copy below).length = (below + 1) * r.captures.length := by
  rw [r.captures_eq, List.length_append]
  induction below generalizing copy with
  | zero => simp [levelCaptures]
  | succ below ih =>
    rw [levelCaptures, List.length_append, List.length_append, List.length_map, List.length_map, ih,
      Nat.succ_mul (below + 1)]
    omega

end Recursion

namespace Slices

theorem unrolledCaptures_eq (h : Slices ts marker r) : r.unrolledCaptures = r.order := by
  rw [h.order_eq, Recursion.unrolledCaptures, r.levelCaptures_eq]

/-- Each level below the first adds the captures of the region. -/
theorem length_order (h : Slices ts marker r) (hd : 1 ≤ r.depth) :
    r.order.length = captureCount ts + (r.depth - 1) * r.captures.length := by
  have hcount := congrArg List.length h.captures
  simp only [List.length_range', List.length_append] at hcount
  obtain ⟨below, hbelow⟩ : ∃ below, r.depth = below + 1 := ⟨r.depth - 1, by omega⟩
  rw [← h.unrolledCaptures_eq, Recursion.unrolledCaptures, List.length_append, List.length_append,
    r.length_levelCaptures, List.length_map, List.length_map, hcount, hbelow, Nat.add_sub_cancel,
    Nat.succ_mul]
  simp only [Recursion.beforeCaptures, Recursion.afterCaptures]
  omega

/-- A reference of a copy is to the capture of that copy, if there is one. -/
theorem numberOf?_copyNumber (h : Slices ts marker r) (hcopy : copy < r.depth)
    (hi : 0 < i ∧ i ≤ captureCount ts) :
    numberOf? r.order (.existing i (if i ∈ r.captures then copy else 0))
      = some (r.copyNumber copy i) := by
  have hmem : .existing i (if i ∈ r.captures then copy else 0) ∈ r.order := by
    refine h.mem_order.2 ⟨i, _, rfl, ?_⟩
    by_cases hregion : i ∈ r.captures ∧ copy ≠ 0
    · rw [if_pos hregion.1]
      exact .inr ⟨hregion.1, by omega, by omega⟩
    · refine .inl ⟨?_, hi⟩
      grind
  obtain ⟨j, hj⟩ := exists_numberOf? hmem
  have hcontains : (if r.captures.contains i = true then copy else 0)
      = if i ∈ r.captures then copy else 0 := by
    simp only [List.contains_iff_mem]
  rw [Recursion.copyNumber, hcontains, referenceNumber_eq hj, hj]

end Slices

/-! ## Tokens of the levels -/

/-- A stretch of the pattern can be replaced by its copy. -/
theorem renders_copy (hreads : Reads ts follow)
    (hnames : copy ≠ 0 → Unquestioned Token.isNamed ts follow)
    (hnumber : ∀ t ∈ ts, ∀ i, t.kind = .backreference i → 0 < r.copyNumber copy i ∧ r.copyNumber copy i < 2 ^ 64)
    :
    Renders ts (ts.map (r.copyToken copy)) follow := by
  induction ts with
  | nil => exact .nil
  | cons t ts ih =>
    rw [List.forall_mem_cons] at hnumber
    have hfirst : Renders [t] [r.copyToken copy t] (textOf ts ++ follow) := by
      rw [Recursion.copyToken]
      rcases relabel_cases (copyName copy) (r.copyNumber copy) t with
        ⟨title, hk, h⟩ | ⟨i, hk, h⟩ | ⟨-, -, h⟩ <;> rw [h]
      · obtain ⟨ht, hnone⟩ := hreads.1.eq_captureToken hk
        by_cases hcopy : copy = 0
        · rw [copyName, if_pos hcopy, ← ht]
          exact renders_same hreads.1
        · rw [copyName, if_neg hcopy]
          refine renders_unnamed ?_
          cases title with
          | none => exact hnone rfl
          | some name => exact (hnames hcopy).1 (by simp [Token.isNamed, Token.captureName?, hk])
      · exact renders_reference hreads.1 hk (hnumber.1 i hk).1 (hnumber.1 i hk).2
      · exact renders_same hreads.1
    exact hfirst.append (ih hreads.2 (fun hcopy => (hnames hcopy).2) hnumber.2) hreads.2

/-- The class that matches nothing reads back. -/
theorem readsBefore_neverToken (z : List Char) : neverToken.ReadsBefore z :=
  regular_neverToken.sound rfl z fun _ _ => rfl

/-- Whatever takes the place of the marker, the rest of a level is a copy of the region. -/
theorem renders_around {us : List Token} {u : Token}
    (hreads : Reads (head ++ marker :: tail) follow)
    (hnames : copy ≠ 0 → Unquestioned Token.isNamed (head ++ marker :: tail) follow)
    (hnumber : ∀ t ∈ head ++ tail, ∀ i, t.kind = .backreference i → 0 < r.copyNumber copy i ∧ r.copyNumber copy i < 2 ^ 64)
    (hu : ∃ c ∈ breakers, ∃ cs, u.text = c :: cs) (hus : ∀ z, Reads (u :: us) z) :
    Renders (head ++ marker :: tail)
      (head.map (r.copyToken copy) ++ ((u :: us) ++ tail.map (r.copyToken copy))) follow := by
  obtain ⟨hreadsHead, hreadsMarker, hreadsTail⟩ := reads_append.1 hreads
  rw [unquestioned_append, Unquestioned] at hnames
  rw [List.forall_mem_append] at hnumber
  have hmiddle : Renders [marker] (u :: us) (textOf tail ++ follow) :=
    .of_breaks hu fun z _ => hus z
  have hsecond := hmiddle.append
    (renders_copy hreadsTail (fun hcopy => (hnames hcopy).2.2) hnumber.2) hreadsTail
  have hfirst := renders_copy hreadsHead (fun hcopy => (hnames hcopy).1) hnumber.1
  exact hfirst.append hsecond ⟨hreadsMarker, hreadsTail⟩

/-- **The region can be replaced by its levels.** -/
theorem renders_level (hhead : r.head.map (·.token) = head) (htail : r.tail.map (·.token) = tail)
    (hreads : Reads (head ++ marker :: tail) follow)
    (hwhole : ∀ t ∈ head ++ marker :: tail, t.isTruncated = false)
    (hnumber : ∀ copy, ∀ t ∈ head ++ tail, ∀ i, t.kind = .backreference i → 0 < r.copyNumber copy i ∧ r.copyNumber copy i < 2 ^ 64)
    (below copy : Nat)
    (hnames : copy + below ≠ 0 → Unquestioned Token.isNamed (head ++ marker :: tail) follow) :
    Renders (head ++ marker :: tail) (r.levelTokens copy below) follow := by
  induction below generalizing copy with
  | zero =>
    rw [Recursion.levelTokens, hhead, htail]
    have hnever : ∀ z, Reads [neverToken] z := fun z => ⟨readsBefore_neverToken _, trivial⟩
    exact renders_around hreads hnames (hnumber copy) ⟨'[', by decide, _, rfl⟩ hnever
  | succ below ih =>
    have hnamed := hnames (by omega)
    have hinner := ih (copy + 1) fun _ => hnamed
    have hgroup : ∀ z,
        Reads (groupToken :: (r.levelTokens (copy + 1) below ++ [closeToken])) z := by
      intro z
      refine ⟨readsBefore_groupToken _, reads_append.2 ⟨?_, readsBefore_closeToken _, trivial⟩⟩
      -- a parenthesis follows the inner level, where the text after the region was
      refine hinner.reads _ (.of_breaks (breaks_cons (by decide) _)) ?_
      rintro - ⟨t, ht, htruncated⟩
      rw [hwhole t ht] at htruncated
      cases htruncated
    rw [Recursion.levelTokens, hhead, htail]
    simpa using renders_around hreads (fun _ => hnamed) (hnumber copy)
      ⟨'(', by decide, _, rfl⟩ hgroup

/-! ## The region of a marker -/

/-- The marker means the capture that `opener` opens after the tokens `outside`. A name means the
first capture that has it. -/
def NamesCapture (outside : List Token) (opener : Token) : GroupName → Prop
  | .number n => opener.captureName?.isSome ∧ n = captureCount outside + 1
  | .name s => opener.captureName? = some (some s) ∧ ∀ t ∈ outside, t.captureName? ≠ some (some s)

theorem findIdx?_opens_of_namesCapture {outside : List Token} {opener : Token} {target : GroupName}
    (h : NamesCapture outside opener target) (rest : List Token) :
    (numberTokens 0 (outside ++ opener :: rest)).findIdx? (·.opens target)
      = some outside.length := by
  cases target with
  | number n =>
    obtain ⟨hopen, rfl⟩ := h
    exact findIdx?_opens outside opener rest hopen
  | name s =>
    obtain ⟨hopen, houtside⟩ := h
    rw [numberTokens_append, List.findIdx?_append]
    have hnone : (numberTokens 0 outside).findIdx? (·.opens (.name s)) = none := by
      rw [List.findIdx?_eq_none_iff]
      intro t ht
      have hmem : t.token ∈ outside := by
        rw [← map_token_numberTokens 0 outside]
        exact List.mem_map_of_mem ht
      simpa [NumberedToken.opens] using houtside _ hmem
    rw [hnone, numberTokens, if_pos (by simp [hopen]), List.findIdx?_cons]
    simp [NumberedToken.opens, hopen]

/-- What a marker recurses into: the whole pattern, or all that is inside a capture around it. -/
inductive RecursesInto : Kind → (before region after : List Token) → Prop where
  | whole (depth : Nat) (region : List Token) : RecursesInto (.recursion depth) [] region []
  | capture {target : GroupName} {outside region : List Token} {opener closer : Token} (depth : Nat)
    (rest : List Token) (hopen : NamesCapture outside opener target) (hregion : Balanced region)
    (hclose : closer.kind = .close) :
    RecursesInto (.groupRecursion target depth) (outside ++ [opener]) region (closer :: rest)

/-- The pattern `ts` has one marker, and `head`, the marker and `tail` are what it recurses into. -/
structure Recurs (ts before head : List Token) (marker : Token) (tail after : List Token) :
    Prop where
  tokens : ts = before ++ (head ++ marker :: tail ++ after)
  single : ts.filter (·.kind.isMarker) = [marker]
  region : RecursesInto marker.kind before (head ++ marker :: tail) after
  depth : 1 ≤ marker.kind.depth

theorem isOpen_of_isSome_captureName? {t : Token} (h : t.captureName?.isSome) : t.kind.isOpen := by
  cases hk : t.kind <;> simp_all [Token.captureName?, Kind.isOpen]

namespace Recurs

variable {before after : List Token}

section

variable (h : Recurs ts before head marker tail after)

include h

theorem isMarker : marker.kind.isMarker := by
  have hmem : marker ∈ ts.filter (·.kind.isMarker) := by
    rw [h.single]
    exact List.mem_singleton_self _
  exact (List.mem_filter.1 hmem).2

theorem slices : Slices ts marker (cutAt before head tail after marker.kind.depth) :=
  slices_cutAt before after h.tokens h.isMarker h.single

/-- The region is found. -/
theorem region_eq :
    Reduction.region ts (before.length + head.length) marker.kind
      = .ok (before.length, before.length + (head.length + 1 + tail.length)) := by
  have hregion := h.region
  rw [h.tokens]
  generalize hk : marker.kind = kind at hregion
  generalize hinside : head ++ marker :: tail = inside at hregion
  have hlength : inside.length = head.length + 1 + tail.length := by
    rw [← hinside]
    simp
    omega
  cases hregion with
  | whole depth => simp [Reduction.region, hlength]
  | @capture target outside _ opener closer depth rest hopen hbalanced hclose =>
    have hsplit : outside ++ [opener] ++ (inside ++ closer :: rest)
        = outside ++ opener :: (inside ++ closer :: rest) := by
      simp
    have hgroup : opener.kind.isOpen := by
      apply isOpen_of_isSome_captureName?
      cases target with
      | number n => exact hopen.1
      | name s => rw [hopen.1]; rfl
    rw [hsplit, Reduction.region, findIdx?_opens_of_namesCapture hopen]
    dsimp only
    rw [matchingClose_balanced hgroup hclose hbalanced]
    dsimp only
    rw [List.length_append, List.length_singleton, if_pos (by simp; omega)]
    congr 2
    omega

/-- The text after the region is at a break. -/
theorem breaks_after (hreads : Reads ts []) : Breaks (textOf after) := by
  rw [h.tokens, reads_append, reads_append] at hreads
  have hregion := h.region
  generalize marker.kind = kind at hregion
  cases hregion with
  | whole => exact breaks_nil
  | capture depth rest hopen hbalanced hclose =>
    rw [textOf_cons, hreads.2.2.1.eq_closeToken hclose]
    exact breaks_cons (by decide) _

/-- **The pattern can be replaced by the unrolled one.** -/
theorem reads_unrolledTokens (hreads : Reads ts [])
    (hlast : ∀ t ∈ ts.getLast?, t.isTruncated = false)
    (hnames : 2 ≤ marker.kind.depth → NoQuestionAfter Token.isNamed (head ++ marker :: tail))
    (hr : r = cutAt before head tail after marker.kind.depth)
    (hnumber : ∀ copy, ∀ t ∈ ts, ∀ i, t.kind = .backreference i → 0 < r.copyNumber copy i ∧ r.copyNumber copy i < 2 ^ 64) :
    Reads r.unrolledTokens [] := by
  have hbreaks := h.breaks_after hreads
  have hwhole := hreads.isTruncated_eq_false hlast
  rw [h.tokens] at hreads hnumber hwhole
  obtain ⟨hreadsBefore, hreadsRest⟩ := reads_append.1 hreads
  obtain ⟨hreadsRegion, hreadsAfter⟩ := reads_append.1 hreadsRest
  rw [List.append_nil] at hreadsRegion
  have hquestion : (textOf after).head? ≠ some '?' := fun hhead =>
    absurd (hbreaks '?' hhead) (by decide)
  have hlevel : Renders (head ++ marker :: tail) (r.levelTokens 0 (r.depth - 1))
      (textOf after ++ []) := by
    rw [List.append_nil]
    refine renders_level (by simp [hr, cutAt]) (by simp [hr, cutAt]) hreadsRegion
      (fun t ht => hwhole t (by simp only [List.mem_append] at ht ⊢; tauto)) (fun copy t ht =>
        hnumber copy t (by simp only [List.mem_append, List.mem_cons] at ht ⊢; tauto))
      _ _ fun hdepth => ?_
    refine (hnames ?_).unquestioned hreadsRegion hquestion
    have : r.depth = marker.kind.depth := by rw [hr]; rfl
    omega
  have hafter : Renders after (after.map (r.copyToken 0)) [] :=
    renders_copy hreadsAfter (absurd rfl) fun t ht => hnumber 0 t (by simp [ht])
  have hbefore : Renders before (before.map (r.copyToken 0))
      (textOf (head ++ marker :: tail ++ after) ++ []) :=
    renders_copy hreadsBefore (absurd rfl) fun t ht => hnumber 0 t (by simp [ht])
  have hall := hbefore.append (hlevel.append hafter hreadsAfter) hreadsRest
  have htokens : r.unrolledTokens = before.map (r.copyToken 0)
      ++ (r.levelTokens 0 (r.depth - 1) ++ after.map (r.copyToken 0)) := by
    simp [Recursion.unrolledTokens, hr, cutAt]
  rw [htokens]
  exact hall.reads [] (.refl []) fun _ _ => rfl

end

end Recurs

/-- The captures inside the region, by their numbers. -/
theorem mem_captures_cutAt {before after : List Token} {depth : Nat} :
    i ∈ (cutAt before head tail after depth).captures ↔
      captureCount before < i ∧ i ≤ captureCount (before ++ head ++ tail) := by
  rw [Recursion.captures, cutAt, List.filterMap_append, captures_numberTokens,
    captures_numberTokens, List.mem_append, List.mem_range'_1, List.mem_range'_1]
  simp only [captureCount_append]
  omega

theorem length_captures_cutAt (before head tail after : List Token) (depth : Nat) :
    (cutAt before head tail after depth).captures.length = captureCount (head ++ tail) := by
  rw [Recursion.captures, cutAt, List.filterMap_append, captures_numberTokens,
    captures_numberTokens, List.length_append, List.length_range', List.length_range',
    captureCount_append]

/-- The hidden captures of an unrolled pattern: those that were hidden, and the copies. -/
theorem Slices.mem_hidden_unroll (h : Slices ts marker r) (l : CaptureLayout) {j : Nat} :
    j ∈ (r.unroll l).layout.hidden ↔
      (∃ i ∈ l.hidden, numberOf? r.order (.existing i 0) = some j) ∨
        ∃ i c, 0 < c ∧ numberOf? r.order (.existing i c) = some j := by
  show j ∈ (r.copies.foldl (Recursion.hideCopy r.order l) (carryOver r.order l)).hidden ↔ _
  rw [mem_hidden_foldl_hideCopy, carryOver, CaptureLayout.mem_hidden_renumber, or_comm]
  refine or_congr_right ⟨?_, ?_⟩
  · rintro ⟨i, c, hmem, hnumber⟩
    exact ⟨i, c, (h.mem_copies.1 hmem).2, hnumber⟩
  · rintro ⟨i, c, hc, hnumber⟩
    exact ⟨i, c, h.mem_copies.2 ⟨mem_of_numberOf? hnumber, hc⟩, hnumber⟩

/-- **Unrolling is exact.** Let a pattern with `n` captures have one marker of a depth of at least
one, which recurses into the whole pattern or into a capture around it, and let its references be to
captures that there are. Then unrolling succeeds, and what it gives scans to the tokens of the
levels, each inside the one before. The captures are those of the pattern, with their names and in
their order, and copies without names of those in the region; a reference in a copy is to the
capture of the same copy if it is to one in the region, and else to the one that was there. The
hidden captures are those that were hidden, and the copies.

The pattern must not end in an escape that is cut short. If there are copies, no question mark may
come after the name of a capture in the region, and the captures must be so few that their numbers
can be read. -/
theorem unrollRecursion_exact {d : Draft} {ts before head tail after : List Token} {marker : Token}
    (hscan : scan d.text = .ok ts) (h : Recurs ts before head marker tail after)
    (hlast : ∀ t ∈ ts.getLast?, t.isTruncated = false)
    (hreferences : ∀ t ∈ ts, t.refersWithin (captureCount ts) = true)
    (hnames : 2 ≤ marker.kind.depth → NoQuestionAfter Token.isNamed (head ++ marker :: tail))
    (hsize : captureCount ts + (marker.kind.depth - 1) * captureCount (head ++ tail) < 2 ^ 64) :
    ∃ d' r, r = cutAt before head tail after marker.kind.depth ∧
      unrollRecursion d = .ok d' ∧ scan d'.text = .ok r.unrolledTokens ∧
      captureCount r.unrolledTokens
        = captureCount ts + (marker.kind.depth - 1) * captureCount (head ++ tail) ∧
      r.unrolledTokens.filterMap (·.captureName?)
        = r.unrolledCaptures.map (titleOf (ts.filterMap (·.captureName?))) ∧
      r.unrolledCaptures.filter (·.isKept)
        = (List.range' 1 (captureCount ts)).map (.existing · 0) ∧
      (∀ copy < marker.kind.depth, ∀ i, 0 < i → i ≤ captureCount ts →
        numberOf? r.unrolledCaptures (.existing i
          (if captureCount before < i ∧ i ≤ captureCount (before ++ head ++ tail) then copy else 0))
          = some (r.copyNumber copy i)) ∧
      ∀ j, j ∈ d'.layout.hidden ↔
        (∃ i ∈ d.layout.hidden, numberOf? r.unrolledCaptures (.existing i 0) = some j) ∨
          ∃ i c, 0 < c ∧ numberOf? r.unrolledCaptures (.existing i c) = some j := by
  obtain ⟨r, hr⟩ : ∃ r, r = cutAt before head tail after marker.kind.depth := ⟨_, rfl⟩
  have hslices : Slices ts marker r := hr ▸ h.slices
  have hdepth : 1 ≤ r.depth := hslices.depth ▸ h.depth
  have horder := hslices.length_order hdepth
  have hregion : r.captures.length = captureCount (head ++ tail) := by
    rw [hr, length_captures_cutAt]
  rw [hslices.depth, hregion] at horder
  have hnumber : ∀ copy, ∀ t ∈ ts, ∀ i, t.kind = .backreference i →
      0 < r.copyNumber copy i ∧ r.copyNumber copy i < 2 ^ 64 := by
    intro copy t ht i hk
    have hi := Token.refersWithin_iff.1 (hreferences t ht) i hk
    obtain ⟨hpos, hle⟩ := referenceNumber_le (c := if r.captures.contains i then copy else 0)
      (hslices.mem_order.2 ⟨i, 0, rfl, .inl ⟨rfl, hi⟩⟩)
    exact ⟨hpos, by rw [Recursion.copyNumber]; omega⟩
  have hreads := h.reads_unrolledTokens (reads_of_scan hscan) hlast hnames hr hnumber
  have hspelled := spelled_unrolledTokens r
  have hunroll : unrollRecursion d = .ok (r.unroll d.layout) := by
    refine hslices.unrollRecursion_eq ?_ hdepth hscan
    simpa [hr, cutAt] using h.region_eq
  refine ⟨r.unroll d.layout, r, hr, hunroll, ?_, ?_, ?_, ?_, ?_, ?_⟩
  · have htext : (r.unroll d.layout).text = textOf r.unrolledTokens :=
      hspelled.render_eq hreads.isChain_apart
    rw [htext, scan_of_reads hreads]
  · exact hspelled.captureCount_eq.trans horder
  · rw [hslices.unrolledCaptures_eq, hspelled.titles_eq, hslices.titled_pieces.titles_eq]
    rfl
  · rw [hslices.unrolledCaptures_eq, hslices.reorders_order.kept]
  · intro copy hcopy i hpos hle
    have hinside : i ∈ r.captures ↔
        captureCount before < i ∧ i ≤ captureCount (before ++ head ++ tail) := by
      rw [hr]
      exact mem_captures_cutAt
    simp only [hslices.unrolledCaptures_eq, ← hinside]
    exact hslices.numberOf?_copyNumber (hslices.depth ▸ hcopy) ⟨hpos, hle⟩
  · intro j
    rw [hslices.unrolledCaptures_eq]
    exact hslices.mem_hidden_unroll d.layout

/-- Three levels of a capture that is found by its name, with references to captures of the region
and to one before it. -/
theorem unrollRecursion_exact_three_levels :
    ∃ ts before head tail after marker d' r,
      scan "(a)(?<x>(b)\\g<x&R=3>(c)\\1\\3)\\4".toList = .ok ts ∧
      Recurs ts before head marker tail after ∧ marker.kind.depth = 3 ∧
      r = cutAt before head tail after 3 ∧
      unrollRecursion ⟨"(a)(?<x>(b)\\g<x&R=3>(c)\\1\\3)\\4".toList, ⟨[3], []⟩⟩ = .ok d' ∧
      scan d'.text = .ok r.unrolledTokens ∧ captureCount r.unrolledTokens = 8 ∧
      numberOf? r.unrolledCaptures (.existing 3 2) = some (r.copyNumber 2 3) := by
  obtain ⟨ts, hscan, hrecurs⟩ : ∃ ts, scan "(a)(?<x>(b)\\g<x&R=3>(c)\\1\\3)\\4".toList = .ok ts ∧
      Recurs ts ([captureToken none, ⟨.atom, ['a']⟩, closeToken] ++ [captureToken (some ['x'])])
        [captureToken none, ⟨.atom, ['b']⟩, closeToken]
        ⟨.groupRecursion (.name ['x']) 3, "\\g<x&R=3>".toList⟩
        [captureToken none, ⟨.atom, ['c']⟩, closeToken, referenceToken 1, referenceToken 3]
        [closeToken, referenceToken 4] :=
    ⟨_, by decide +kernel, rfl, by decide, .capture 3 _ ⟨rfl, by decide⟩ (by decide) rfl, by decide⟩
  obtain rfl := hrecurs.tokens
  obtain ⟨d', r, hr, hd', hscan', hcount, -, -, hnumber, -⟩ := unrollRecursion_exact
    (d := ⟨_, ⟨[3], []⟩⟩) hscan hrecurs (by decide) (by decide) (fun _ => by decide) (by decide)
  exact ⟨_, _, _, _, _, _, d', r, hscan, hrecurs, rfl, hr, hd', hscan', hcount,
    hnumber 2 (by decide) 3 (by decide) (by decide)⟩

/-- **A copy of a capture can read as another thing.** The pattern fulfils all else that unrolling
asks for, but its capture has a question mark after its name. In the copy there is no name between
the parenthesis and the question mark, and the unrolled text cannot be scanned. -/
theorem unrolled_name_before_question :
    ∃ ts before head tail after marker,
      scan "(?<a>?x)(?R=2)".toList = .ok ts ∧ Recurs ts before head marker tail after ∧
      (∀ t ∈ ts.getLast?, t.isTruncated = false) ∧
      (∀ t ∈ ts, t.refersWithin (captureCount ts) = true) ∧
      unrollRecursion ⟨"(?<a>?x)(?R=2)".toList, {}⟩
        = .ok ⟨"(?<a>?x)(?:(?x)[^\\s\\S])".toList, ⟨[2], [(1, [2])]⟩⟩ ∧
      scan "(?<a>?x)(?:(?x)[^\\s\\S])".toList = .error (.malformed 14 .invalidGroup) := by
  obtain ⟨ts, hscan, hrecurs⟩ : ∃ ts, scan "(?<a>?x)(?R=2)".toList = .ok ts ∧
      Recurs ts []
        [captureToken (some ['a']), ⟨.quantifier false, ['?']⟩, ⟨.atom, ['x']⟩, closeToken]
        ⟨.recursion 2, "(?R=2)".toList⟩ [] [] :=
    ⟨_, by decide +kernel, rfl, by decide, .whole 2 _, by decide⟩
  obtain rfl := hrecurs.tokens
  exact ⟨_, _, _, _, _, _, hscan, hrecurs, by decide, by decide, by decide +kernel,
    by decide +kernel⟩

end Diglot.Reduction
