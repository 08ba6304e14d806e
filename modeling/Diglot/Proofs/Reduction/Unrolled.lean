import Diglot.Proofs.Reduction.Region
import Diglot.Proofs.Reduction.Relabel

/-!
# Unrolled patterns

An unrolled pattern is the pattern with its marker filled: by a group with the region in it, whose
marker is filled in the same way, and so on. Copies of captures have no names, and a reference to a
capture of the region means the one in the same copy.
-/

namespace Diglot.Reduction

open Emitted

/-! ## Copies -/

/-- The name of a capture in a copy of the region. -/
def copyName (copy : Nat) (title : Option (List Char)) : Option (List Char) :=
  if copy = 0 then title else none

/-- The class that matches nothing. -/
def neverToken : Token := ⟨.atom, neverClass⟩

namespace Recursion

/-- The captures of the unrolled pattern, in opening order. -/
def order (r : Recursion) : List CaptureKey :=
  keys r.pieces

/-- The number of a reference in a copy of the region. -/
def copyNumber (r : Recursion) (copy i : Nat) : Nat :=
  referenceNumber r.order (.existing i (if r.captures.contains i then copy else 0))

/-- A token in a copy of the region. -/
def copyToken (r : Recursion) (copy : Nat) : Token → Token :=
  relabel (copyName copy) (r.copyNumber copy)

/-- What stands in the place of the marker of a copy with `below` more levels inside. -/
def hole (r : Recursion) (region : List Phrase) : Nat → Nat → Phrase
  | _, 0 => .leaf neverToken
  | copy, below + 1 =>
    .group groupToken (fillAll (r.copyToken (copy + 1)) (r.hole region (copy + 1) below) region)
termination_by structural _ below => below

/-- The phrases of the unrolled pattern. -/
def unrolled (r : Recursion) (region : List Phrase) (ps : List Phrase) : List Phrase :=
  fillAll (r.copyToken 0) (r.hole region 0 (r.depth - 1)) ps

end Recursion

theorem regular_neverToken : neverToken.Regular := by
  have hpasses : Passes ['^', '\\', 's', '\\', 'S'] :=
    (passes_char (by decide)).append ((passes_escape 's').append (passes_escape 'S'))
  exact regular_atom (sound_class hpasses)

theorem plug_neverToken : Plug (.leaf neverToken) where
  legible := .leaf regular_neverToken rfl
  target := rfl
  first := by decide
  last := by decide

/-! ## Pieces of copies -/

section

variable (r : Recursion) (copy : Nat)

/-- The piece of a token in a copy is the token. -/
theorem spelled_copyToken (t : NumberedToken) :
    SpelledAs r.order (r.copyTokens copy [t]) [r.copyToken copy t.token] := by
  rw [Recursion.copyTokens, List.map_singleton]
  refine .single ?_
  split
  next name hk =>
    rw [Recursion.copyToken, relabel_capture hk]
    exact .openCapture _ _
  next i hk =>
    rw [Recursion.copyToken, relabel_reference hk]
    exact .backreference _
  next hc hr =>
    have hname : t.token.captureName? = none := captureName?_eq_none hc
    rw [Recursion.copyToken, relabel_other hname (isReference_eq_false hr)]
    exact .text_single hname

/-- The pieces of a copy are its tokens. -/
theorem spelled_copyTokens (ts : List NumberedToken) :
    SpelledAs r.order (r.copyTokens copy ts) ((ts.map (·.token)).map (r.copyToken copy)) := by
  induction ts with
  | nil => exact .nil
  | cons t ts ih => exact (spelled_copyToken r copy t).append ih

theorem keys_copyTokens {ts : List NumberedToken}
    (h : ∀ t ∈ ts, t.capture.isSome = t.token.captureName?.isSome) :
    keys (r.copyTokens copy ts) = (ts.filterMap (·.capture)).map (.existing · copy) := by
  rw [keys, Recursion.copyTokens, List.filterMap_map, List.map_filterMap]
  refine List.filterMap_congr fun t ht => ?_
  have hcapture := h t ht
  simp only [Function.comp_apply]
  split
  next name hk =>
    have hsome : t.capture.isSome := by simpa [Token.captureName?, hk] using hcapture
    obtain ⟨c, hc⟩ := Option.isSome_iff_exists.1 hsome
    simp [hc, Piece.key?]
  next i hk =>
    have hnone : t.capture = none := by simpa [Token.captureName?, hk] using hcapture
    simp [hnone, Piece.key?]
  next hc hr =>
    have hnone : t.capture = none := by simpa [captureName?_eq_none hc] using hcapture
    simp [hnone, Piece.key?]

end

/-! ## Levels -/

/-- The tokens of the region from the `copy`-th copy inwards, with `below` levels inside it. -/
def Recursion.levelTokens (r : Recursion) : Nat → Nat → List Token
  | copy, 0 =>
    (r.head.map (·.token)).map (r.copyToken copy)
      ++ neverToken :: (r.tail.map (·.token)).map (r.copyToken copy)
  | copy, below + 1 =>
    (r.head.map (·.token)).map (r.copyToken copy)
      ++ groupToken :: (r.levelTokens (copy + 1) below
        ++ closeToken :: (r.tail.map (·.token)).map (r.copyToken copy))
termination_by structural _ below => below

/-- The tokens of the unrolled pattern. -/
def Recursion.unrolledTokens (r : Recursion) : List Token :=
  (r.before.map (·.token)).map (r.copyToken 0)
    ++ (r.levelTokens 0 (r.depth - 1) ++ (r.after.map (·.token)).map (r.copyToken 0))

/-- **The pieces of a level are its tokens.** -/
theorem spelled_levelTokens (r : Recursion) (copy below : Nat) :
    SpelledAs r.order (r.level copy below) (r.levelTokens copy below) := by
  have htext : ∀ t : Token, t.captureName? = none → SpelledAs r.order [.text t.text] [t] :=
    fun t ht => .single (.text_single ht)
  induction below generalizing copy with
  | zero =>
    exact (spelled_copyTokens r copy r.head).append
      ((htext neverToken rfl).append (spelled_copyTokens r copy r.tail))
  | succ below ih =>
    have hinner := (htext groupToken rfl).append ((ih (copy + 1)).append
      ((htext closeToken rfl).append (spelled_copyTokens r copy r.tail)))
    simpa [Recursion.level, Recursion.levelTokens, groupToken, closeToken] using
      (spelled_copyTokens r copy r.head).append hinner

theorem spelled_unrolledTokens (r : Recursion) : SpelledAs r.order r.pieces r.unrolledTokens := by
  simpa [Recursion.pieces, Recursion.unrolledTokens] using (spelled_copyTokens r 0 r.before).append
    ((spelled_levelTokens r 0 (r.depth - 1)).append (spelled_copyTokens r 0 r.after))

/-- Tokens with one marker are filled at the marker. -/
theorem flatMap_fillToken {f : Token → Token} {p : Phrase} {head tail : List Token} {marker : Token}
    (hm : marker.kind.isMarker) (hh : head.filter (·.kind.isMarker) = [])
    (ht : tail.filter (·.kind.isMarker) = []) :
    (head ++ marker :: tail).flatMap (fillToken f p) = head.map f ++ (p.tokens ++ tail.map f) := by
  have hmap : ∀ ts : List Token, ts.filter (·.kind.isMarker) = [] →
      ts.flatMap (fillToken f p) = ts.map f := by
    intro ts hts
    rw [← List.flatMap_singleton' (ts.map f), List.flatMap_map]
    refine List.flatMap_congr fun t ht => fillToken_of_not ?_
    simpa using List.filter_eq_nil_iff.1 hts t ht
  rw [List.flatMap_append, List.flatMap_cons, hmap head hh, hmap tail ht, fillToken, if_pos hm]

namespace Cut

variable {ps : List Phrase} {marker : Token} {region : List Phrase} {r : Recursion}

/-- The tokens of the region in a copy, with something in the place of the marker. -/
theorem tokens_region (h : Cut ps marker region r) (copy : Nat) (p : Phrase) :
    phraseTokens (fillAll (r.copyToken copy) p region)
      = (r.head.map (·.token)).map (r.copyToken copy)
        ++ (p.tokens ++ (r.tail.map (·.token)).map (r.copyToken copy)) := by
  rw [Recursion.copyToken, tokens_fillAll region h.wellFormed, h.inside]
  have hnot := h.not_marker
  simp only [List.map_append, List.filter_append, List.append_eq_nil_iff] at hnot
  exact flatMap_fillToken h.isMarker hnot.1.2 hnot.2.1

/-- The tokens of the unrolled pattern. -/
theorem tokens_unrolled (h : Cut ps marker region r) (hw : AllWellFormed ps) :
    phraseTokens (r.unrolled region ps)
      = ((r.before ++ r.head).map (·.token)).map (r.copyToken 0)
        ++ ((r.hole region 0 (r.depth - 1)).tokens
          ++ ((r.tail ++ r.after).map (·.token)).map (r.copyToken 0)) := by
  rw [Recursion.unrolled, Recursion.copyToken, tokens_fillAll ps hw, h.split]
  exact flatMap_fillToken h.isMarker h.not_marker.1 h.not_marker.2

/-- The tokens of a level, with what stands in the place of its marker. -/
theorem levelTokens_eq (h : Cut ps marker region r) (copy below : Nat) :
    r.levelTokens copy below = (r.head.map (·.token)).map (r.copyToken copy)
      ++ ((r.hole region copy below).tokens
        ++ (r.tail.map (·.token)).map (r.copyToken copy)) := by
  induction below generalizing copy with
  | zero => rfl
  | succ below ih =>
    rw [Recursion.levelTokens, Recursion.hole, Phrase.tokens, h.tokens_region, ih]
    simp

/-- The pieces of the unrolled pattern are its tokens. -/
theorem spelled_pieces (h : Cut ps marker region r) (hw : AllWellFormed ps) :
    SpelledAs r.order r.pieces (phraseTokens (r.unrolled region ps)) := by
  have htokens : phraseTokens (r.unrolled region ps) = r.unrolledTokens := by
    rw [h.tokens_unrolled hw, Recursion.unrolledTokens, h.levelTokens_eq]
    simp
  rw [htokens]
  exact spelled_unrolledTokens r

end Cut

/-! ## The captures of an unrolled pattern -/

/-- The captures in the place of a marker, if the captures `head` open before it and the captures
`tail` after it. -/
def holeKeys (head tail : List Nat) : Nat → Nat → List CaptureKey
  | _, 0 => []
  | copy, below + 1 =>
    head.map (.existing · (copy + 1))
      ++ (holeKeys head tail (copy + 1) below ++ tail.map (.existing · (copy + 1)))
termination_by structural _ below => below

theorem mem_holeKeys {head tail : List Nat} {below copy : Nat} {key : CaptureKey} :
    key ∈ holeKeys head tail copy below ↔
      ∃ i c, key = .existing i c ∧ i ∈ head ++ tail ∧ copy < c ∧ c ≤ copy + below := by
  induction below generalizing copy with
  | zero =>
    simp only [holeKeys, List.not_mem_nil, false_iff]
    rintro ⟨i, c, -, -, h, h'⟩
    omega
  | succ below ih =>
    simp only [holeKeys, List.mem_append, List.mem_map, ih]
    constructor
    · rintro (⟨i, hi, rfl⟩ | ⟨i, c, rfl, hi, h, h'⟩ | ⟨i, hi, rfl⟩)
      · exact ⟨i, copy + 1, rfl, .inl hi, by omega, by omega⟩
      · exact ⟨i, c, rfl, hi, by omega, by omega⟩
      · exact ⟨i, copy + 1, rfl, .inr hi, by omega, by omega⟩
    · rintro ⟨i, c, rfl, hi, h, h'⟩
      rcases Nat.eq_or_lt_of_le (Nat.succ_le_of_lt h) with rfl | hlt
      · rcases hi with hi | hi
        · exact .inl ⟨i, hi, rfl⟩
        · exact .inr (.inr ⟨i, hi, rfl⟩)
      · exact .inr (.inl ⟨i, c, rfl, hi, hlt, by omega⟩)

theorem nodup_holeKeys {head tail : List Nat} (h : (head ++ tail).Nodup) (copy below : Nat) :
    (holeKeys head tail copy below).Nodup := by
  rw [List.nodup_append] at h
  induction below generalizing copy with
  | zero => exact List.nodup_nil
  | succ below ih =>
    rw [holeKeys, List.nodup_append, List.nodup_append]
    refine ⟨nodup_map_existing h.1 _, ⟨ih _, nodup_map_existing h.2.1 _, ?_⟩, ?_⟩
    · rintro a ha b hb rfl
      obtain ⟨i, c, rfl, -, hc, -⟩ := mem_holeKeys.1 ha
      obtain ⟨j, -, hj⟩ := List.mem_map.1 hb
      have := (CaptureKey.existing.inj hj).2
      omega
    · rintro a ha b hb rfl
      obtain ⟨i, hi, rfl⟩ := List.mem_map.1 ha
      rcases List.mem_append.1 hb with hb | hb
      · obtain ⟨j, c, hj, -, hc, -⟩ := mem_holeKeys.1 hb
        have := (CaptureKey.existing.inj hj).2
        omega
      · obtain ⟨j, hj, heq⟩ := List.mem_map.1 hb
        exact h.2.2 i hi j hj (CaptureKey.existing.inj heq).1.symm

namespace Recursion

/-- The captures before the marker in the region. -/
def headCaptures (r : Recursion) : List Nat := r.head.filterMap (·.capture)

/-- The captures after the marker in the region. -/
def tailCaptures (r : Recursion) : List Nat := r.tail.filterMap (·.capture)

/-- The captures before the region. -/
def beforeCaptures (r : Recursion) : List Nat := r.before.filterMap (·.capture)

/-- The captures after the region. -/
def afterCaptures (r : Recursion) : List Nat := r.after.filterMap (·.capture)

theorem captures_eq (r : Recursion) : r.captures = r.headCaptures ++ r.tailCaptures :=
  List.filterMap_append

end Recursion

namespace Slices

variable {ts : List Token} {marker : Token} {r : Recursion}

section

variable (h : Slices ts marker r)

include h

theorem range_eq :
    List.range' 1 (captureCount ts) = r.beforeCaptures
      ++ (r.headCaptures ++ r.tailCaptures ++ r.afterCaptures) := by
  rw [← r.captures_eq]
  exact h.captures

theorem keys_level (copy below : Nat) :
    keys (r.level copy below) = r.headCaptures.map (.existing · copy)
      ++ (holeKeys r.headCaptures r.tailCaptures copy below
        ++ r.tailCaptures.map (.existing · copy)) := by
  have htext : ∀ t rest, keys (.text t :: rest) = keys rest := fun _ _ => rfl
  have hhead : ∀ copy, keys (r.copyTokens copy r.head) = r.headCaptures.map (.existing · copy) :=
    fun copy => keys_copyTokens r copy fun t ht => h.isSome_capture t (by simp [ht])
  have htail : ∀ copy, keys (r.copyTokens copy r.tail) = r.tailCaptures.map (.existing · copy) :=
    fun copy => keys_copyTokens r copy fun t ht => h.isSome_capture t (by simp [ht])
  induction below generalizing copy with
  | zero => rw [Recursion.level, keys_append, hhead, htext, htail, holeKeys, List.nil_append]
  | succ below ih =>
    rw [Recursion.level, List.append_assoc, List.cons_append]
    simp only [keys_append, hhead, htail, htext, ih, holeKeys, List.append_assoc]

/-- The captures of an unrolled pattern in their order. -/
theorem order_eq :
    r.order = r.beforeCaptures.map (.existing · 0)
      ++ (r.headCaptures.map (.existing · 0)
        ++ (holeKeys r.headCaptures r.tailCaptures 0 (r.depth - 1)
          ++ r.tailCaptures.map (.existing · 0))
        ++ r.afterCaptures.map (.existing · 0)) := by
  have hbefore : keys (r.copyTokens 0 r.before) = r.beforeCaptures.map (.existing · 0) :=
    keys_copyTokens r 0 fun t ht => h.isSome_capture t (by simp [ht])
  have hafter : keys (r.copyTokens 0 r.after) = r.afterCaptures.map (.existing · 0) :=
    keys_copyTokens r 0 fun t ht => h.isSome_capture t (by simp [ht])
  rw [Recursion.order, Recursion.pieces, keys_append, keys_append, hbefore, hafter, h.keys_level,
    List.append_assoc]

/-- **The captures of an unrolled pattern** are those of the pattern, and copies of those in the
region. -/
theorem mem_order {key : CaptureKey} :
    key ∈ r.order ↔ ∃ i c, key = .existing i c ∧
      ((c = 0 ∧ 0 < i ∧ i ≤ captureCount ts) ∨
        (i ∈ r.captures ∧ 0 < c ∧ c ≤ r.depth - 1)) := by
  have hrange : ∀ i, 0 < i ∧ i ≤ captureCount ts ↔ i ∈ r.beforeCaptures ∨
      ((i ∈ r.headCaptures ∨ i ∈ r.tailCaptures) ∨ i ∈ r.afterCaptures) := by
    intro i
    have hmem := List.mem_range'_1 (m := i) (s := 1) (n := captureCount ts)
    rw [h.range_eq] at hmem
    simp only [List.mem_append] at hmem
    rw [hmem]
    omega
  simp only [h.order_eq, List.mem_append, List.mem_map, mem_holeKeys, hrange, r.captures_eq,
    Nat.zero_add]
  constructor
  · rintro (⟨i, hi, rfl⟩ | (⟨i, hi, rfl⟩ | ⟨i, c, rfl, hi, hc⟩ | ⟨i, hi, rfl⟩) | ⟨i, hi, rfl⟩)
    · exact ⟨i, 0, rfl, .inl ⟨rfl, .inl hi⟩⟩
    · exact ⟨i, 0, rfl, .inl ⟨rfl, .inr (.inl (.inl hi))⟩⟩
    · exact ⟨i, c, rfl, .inr ⟨hi, hc⟩⟩
    · exact ⟨i, 0, rfl, .inl ⟨rfl, .inr (.inl (.inr hi))⟩⟩
    · exact ⟨i, 0, rfl, .inl ⟨rfl, .inr (.inr hi)⟩⟩
  · rintro ⟨i, c, rfl, ⟨rfl, hi | (hi | hi) | hi⟩ | hi⟩
    · exact .inl ⟨i, hi, rfl⟩
    · exact .inr (.inl (.inl ⟨i, hi, rfl⟩))
    · exact .inr (.inl (.inr (.inr ⟨i, hi, rfl⟩)))
    · exact .inr (.inr ⟨i, hi, rfl⟩)
    · exact .inr (.inl (.inr (.inl ⟨i, c, rfl, hi⟩)))

/-- No capture is in an unrolled pattern twice. -/
theorem nodup_order : r.order.Nodup := by
  have hnodup : (List.range' 1 (captureCount ts)).Nodup := List.nodup_range'
  rw [h.range_eq] at hnodup
  have hperm : r.order.Perm (holeKeys r.headCaptures r.tailCaptures 0 (r.depth - 1)
      ++ (r.beforeCaptures ++ (r.headCaptures ++ r.tailCaptures ++ r.afterCaptures)).map
        (.existing · 0)) := by
    rw [h.order_eq, List.perm_iff_count]
    intro key
    simp only [List.map_append, List.count_append]
    omega
  rw [hperm.nodup_iff, List.nodup_append]
  have hregion := (List.nodup_append.1 (List.nodup_append.1 hnodup).2.1).1
  refine ⟨nodup_holeKeys hregion _ _, nodup_map_existing hnodup 0, ?_⟩
  rintro a ha b hb rfl
  obtain ⟨i, c, rfl, -, hc, -⟩ := mem_holeKeys.1 ha
  obtain ⟨j, -, hj⟩ := List.mem_map.1 hb
  have := (CaptureKey.existing.inj hj).2
  omega

theorem reorders_order :
    Reorders (captureCount ts) r.order where
  nodup := h.nodup_order
  kept := by
    have hzero : ∀ is : List Nat, (is.map (CaptureKey.existing · 0)).filter (·.isKept)
        = is.map (.existing · 0) := fun is =>
      List.filter_eq_self.2 fun key hkey => by
        obtain ⟨i, -, rfl⟩ := List.mem_map.1 hkey
        rfl
    have hhole : (holeKeys r.headCaptures r.tailCaptures 0 (r.depth - 1)).filter (·.isKept) = [] :=
      List.filter_eq_nil_iff.2 fun key hkey => by
        obtain ⟨i, c, rfl, -, hc, -⟩ := mem_holeKeys.1 hkey
        obtain ⟨c, rfl⟩ := Nat.exists_eq_succ_of_ne_zero (Nat.ne_of_gt hc)
        simp [CaptureKey.isKept]
    rw [h.order_eq, h.range_eq]
    simp only [List.filter_append, hzero, hhole, List.map_append, List.nil_append,
      List.append_assoc]
  bounded i c hmem := by
    obtain ⟨i', c', heq, hi⟩ := h.mem_order.1 hmem
    obtain ⟨rfl, rfl⟩ := CaptureKey.existing.inj heq
    rcases hi with ⟨-, hi⟩ | ⟨hi, -⟩
    · exact hi
    · have hrange : i ∈ List.range' 1 (captureCount ts) := by
        rw [h.captures]
        simp [hi]
      have := List.mem_range'_1.1 hrange
      omega

/-- The captures of the unrolled pattern have the names that they had, and copies have none. -/
theorem titled_pieces : Titled (ts.filterMap (·.captureName?)) r.pieces := by
  have hcopy : ∀ copy part, part ⊆ r.before ++ (r.head ++ (r.tail ++ r.after)) →
      Titled (ts.filterMap (·.captureName?)) (r.copyTokens copy part) := by
    intro copy part hpart key name hmem
    obtain ⟨t, ht, heq⟩ := List.mem_map.1 hmem
    split at heq
    next title hk =>
      obtain ⟨rfl, rfl⟩ := Piece.openCapture.inj heq
      have hname : t.token.captureName? = some title := by simp [Token.captureName?, hk]
      obtain ⟨i, hi⟩ := Option.isSome_iff_exists.1
        ((h.isSome_capture t (hpart ht)).trans (by simp [hname]))
      have htitle := h.titles (hpart ht) hi
      cases copy with
      | zero => simp [titleOf, hi, List.getD_eq_getElem?_getD, htitle, hname]
      | succ copy => rfl
    next => cases heq
    next => cases heq
  have hhead := fun copy => hcopy copy r.head fun _ ht => by simp [ht]
  have htail := fun copy => hcopy copy r.tail fun _ ht => by simp [ht]
  have htext : ∀ t, Titled (ts.filterMap (·.captureName?)) [.text t] :=
    fun t key name hmem => by simp at hmem
  have hlevel : ∀ below copy,
      Titled (ts.filterMap (·.captureName?)) (r.level copy below) := by
    intro below
    induction below with
    | zero =>
      intro copy
      exact (hhead copy).append ((htext _).append (htail copy))
    | succ below ih =>
      intro copy
      exact ((hhead copy).append ((htext _).append (ih _))).append ((htext _).append (htail copy))
  exact ((hcopy 0 r.before fun _ ht => by simp [ht]).append (hlevel _ 0)).append
    (hcopy 0 r.after fun _ ht => by simp [ht])

end

end Slices

/-! ## Unrolled phrases -/

namespace Cut

variable {ps : List Phrase} {marker : Token} {region : List Phrase} {r : Recursion}
  {P : Token → Prop}

section

variable (h : Cut ps marker region r)

include h

theorem tokens_eq : phraseTokens ps
    = r.before.map (·.token) ++ phraseTokens region ++ r.after.map (·.token) := by
  rw [h.split, h.inside]
  simp

theorem mem_of_mem_region {t : Token} (ht : t ∈ phraseTokens region) : t ∈ phraseTokens ps := by
  rw [h.tokens_eq]
  simp [ht]

theorem legible_region (hl : Legible ps) : Legible region where
  wellFormed := h.wellFormed
  regular t ht := hl.regular t (h.mem_of_mem_region ht)
  apart := hl.apart.infix ⟨_, _, h.tokens_eq.symm⟩

/-- References keep having a number in every copy. -/
theorem copyNumber_le (hc : Coherent ps) {t : Token} (ht : t ∈ phraseTokens ps) {i : Nat}
    (hk : t.kind = .backreference i) (copy : Nat) :
    0 < r.copyNumber copy i ∧ r.copyNumber copy i ≤ r.order.length :=
  referenceNumber_le (h.mem_order.2 ⟨i, 0, rfl, .inl ⟨rfl, hc.reference ht hk⟩⟩)

theorem regular_copyToken (hc : Coherent ps) (copy : Nat) :
    ∀ t ∈ phraseTokens ps, (r.copyToken copy t).Regular := by
  intro t ht
  refine regular_relabel (hc.legible.regular t ht) (fun title => ?_) fun i hk =>
    (h.copyNumber_le hc ht hk copy).1
  unfold copyName
  split
  · exact .inl rfl
  · exact .inr rfl

theorem plug_hole (hc : Coherent ps) (copy below : Nat) : Plug (r.hole region copy below) := by
  induction below generalizing copy with
  | zero => exact plug_neverToken
  | succ below ih =>
    have hregular : ∀ t ∈ phraseTokens region, (r.copyToken (copy + 1) t).Regular :=
      fun t ht => h.regular_copyToken hc (copy + 1) t (h.mem_of_mem_region ht)
    exact .group (replaces_fillAll (ih (copy + 1)) region (h.legible_region hc.legible)
      hregular).legible

theorem captureCount_unrolled (hw : AllWellFormed ps) :
    captureCount (phraseTokens (r.unrolled region ps)) = r.order.length :=
  (h.spelled_pieces hw).captureCount_eq

/-- The tokens in the parts of a pattern are tokens of the pattern, and no markers. -/
theorem token_mem {t : NumberedToken} (ht : t ∈ r.before ++ (r.head ++ (r.tail ++ r.after))) :
    t.token ∈ phraseTokens ps ∧ t.token.kind.isMarker = false := by
  have hpart : t.token ∈ (r.before ++ r.head).map (·.token) ∨
      t.token ∈ (r.tail ++ r.after).map (·.token) := by
    rw [← List.append_assoc] at ht
    exact (List.mem_append.1 ht).imp (List.mem_map_of_mem ·) (List.mem_map_of_mem ·)
  rw [h.split, List.mem_append, List.mem_cons]
  rcases hpart with hmem | hmem
  · exact ⟨.inl hmem, by simpa using List.filter_eq_nil_iff.1 h.not_marker.1 _ hmem⟩
  · exact ⟨.inr (.inr hmem), by simpa using List.filter_eq_nil_iff.1 h.not_marker.2 _ hmem⟩

theorem forall_mem_copy {copy : Nat}
    (hcopy : ∀ t ∈ phraseTokens ps, t.kind.isMarker = false → P (r.copyToken copy t))
    {part : List NumberedToken} (hpart : part ⊆ r.before ++ (r.head ++ (r.tail ++ r.after))) :
    ∀ t ∈ (part.map (·.token)).map (r.copyToken copy), P t := by
  rw [List.forall_mem_map, List.forall_mem_map]
  exact fun t ht => hcopy _ (h.token_mem (hpart ht)).1 (h.token_mem (hpart ht)).2

theorem forall_mem_hole (hnever : P neverToken) (hgroup : P groupToken) (hclose : P closeToken)
    (hcopy : ∀ copy, ∀ t ∈ phraseTokens ps, t.kind.isMarker = false → P (r.copyToken copy t))
    (copy below : Nat) : ∀ t ∈ (r.hole region copy below).tokens, P t := by
  induction below generalizing copy with
  | zero =>
    rw [Recursion.hole, Phrase.tokens]
    simpa using hnever
  | succ below ih =>
    rw [Recursion.hole, Phrase.tokens, h.tokens_region, List.forall_mem_cons,
      List.forall_mem_append, List.forall_mem_append, List.forall_mem_append]
    exact ⟨hgroup, ⟨h.forall_mem_copy (hcopy _) fun _ ht => by simp [ht], ih _,
      h.forall_mem_copy (hcopy _) fun _ ht => by simp [ht]⟩, by simpa using hclose⟩

/-- **What an unrolled pattern is made of**: its tokens are copies of tokens of the pattern, the
class that matches nothing, and the brackets of groups. -/
theorem forall_mem_unrolled (hw : AllWellFormed ps) (hnever : P neverToken) (hgroup : P groupToken)
    (hclose : P closeToken)
    (hcopy : ∀ copy, ∀ t ∈ phraseTokens ps, t.kind.isMarker = false → P (r.copyToken copy t)) :
    ∀ t ∈ phraseTokens (r.unrolled region ps), P t := by
  rw [h.tokens_unrolled hw, List.forall_mem_append, List.forall_mem_append]
  refine ⟨h.forall_mem_copy (hcopy 0) ?_, h.forall_mem_hole hnever hgroup hclose hcopy _ _,
    h.forall_mem_copy (hcopy 0) ?_⟩
  · simp
  · simp

/-- The unrolled pattern has no marker. -/
theorem isMarker_unrolled (hw : AllWellFormed ps) :
    ∀ t ∈ phraseTokens (r.unrolled region ps), t.kind.isMarker = false :=
  h.forall_mem_unrolled hw rfl rfl rfl fun copy t _ hm => by simpa [Recursion.copyToken] using hm

/-- **An unrolled pattern is coherent** if the pattern is. -/
theorem coherent_unrolled (hc : Coherent ps) :
    Coherent (r.unrolled region ps) where
  legible := (replaces_fillAll (h.plug_hole hc 0 _) ps hc.legible
    (h.regular_copyToken hc 0)).legible
  references := by
    rw [h.captureCount_unrolled hc.legible.wellFormed]
    refine h.forall_mem_unrolled hc.legible.wellFormed nofun nofun nofun ?_
    intro copy t ht _ i hk
    rcases relabel_cases (copyName copy) (r.copyNumber copy) t with
      ⟨title, -, h'⟩ | ⟨j, hj, h'⟩ | ⟨-, hnot, h'⟩ <;> rw [Recursion.copyToken, h'] at hk
    · cases hk
    · cases hk
      exact (h.copyNumber_le hc ht hj copy).2
    · simp [Token.isReference, hk] at hnot

/-- The text of the unrolled pattern. -/
theorem text_unroll (hc : Coherent ps) (l : CaptureLayout) :
    (r.unroll l).text = textOf (phraseTokens (r.unrolled region ps)) :=
  (h.spelled_pieces hc.legible.wellFormed).render_eq (h.coherent_unrolled hc).legible.apart

end

theorem hostCaptureCount_copy (copy : Nat) (ts : List Token) :
    hostCaptureCount (ts.map (r.copyToken copy)) = hostCaptureCount ts := by
  rw [hostCaptureCount, List.countP_map]
  exact List.countP_congr fun t _ => by simp [Recursion.copyToken]

theorem hostCaptureCount_region (h : Cut ps marker region r) :
    hostCaptureCount (phraseTokens region)
      = hostCaptureCount (r.head.map (·.token)) + hostCaptureCount (r.tail.map (·.token)) := by
  have hmarker : hostCaptureCount [marker] = 0 := by
    have hm := h.isMarker
    unfold hostCaptureCount
    cases hk : marker.kind <;> simp_all [Kind.isMarker, Kind.needsCapture]
  rw [h.inside, List.append_cons, hostCaptureCount_append, hostCaptureCount_append, hmarker,
    Nat.add_zero]

/-- Each level needs the captures of the region. -/
theorem hostCaptureCount_hole (h : Cut ps marker region r) (copy below : Nat) :
    hostCaptureCount (r.hole region copy below).tokens
      = below * hostCaptureCount (phraseTokens region) := by
  induction below generalizing copy with
  | zero =>
    rw [Nat.zero_mul]
    rfl
  | succ below ih =>
    have hgroup : hostCaptureCount [groupToken] = 0 := rfl
    have hclose : hostCaptureCount [closeToken] = 0 := rfl
    rw [Recursion.hole, Phrase.tokens, h.tokens_region, ← List.singleton_append]
    simp only [hostCaptureCount_append, hostCaptureCount_copy, ih, hgroup, hclose, Nat.succ_mul]
    rw [h.hostCaptureCount_region]
    omega

/-- **Unrolling multiplies the captures at most by the depth.** -/
theorem hostCaptureCount_unrolled_le (h : Cut ps marker region r) (hw : AllWellFormed ps)
    (hd : 1 ≤ r.depth) : hostCaptureCount (phraseTokens (r.unrolled region ps))
      ≤ r.depth * hostCaptureCount (phraseTokens ps) := by
  have hregion := h.hostCaptureCount_region
  have htotal : hostCaptureCount (phraseTokens ps) = hostCaptureCount (r.before.map (·.token))
      + hostCaptureCount (phraseTokens region) + hostCaptureCount (r.after.map (·.token)) := by
    rw [h.tokens_eq, hostCaptureCount_append, hostCaptureCount_append]
  obtain ⟨below, hbelow⟩ : ∃ below, r.depth = below + 1 := ⟨r.depth - 1, by omega⟩
  have hle : below * hostCaptureCount (phraseTokens region)
      ≤ below * hostCaptureCount (phraseTokens ps) := Nat.mul_le_mul_left _ (by omega)
  rw [h.tokens_unrolled hw]
  simp only [List.map_append, hostCaptureCount_append, hostCaptureCount_copy,
    h.hostCaptureCount_hole, hbelow, Nat.add_sub_cancel, Nat.succ_mul]
  omega

end Cut

end Diglot.Reduction
