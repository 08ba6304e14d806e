import Diglot.Proofs.Emitted.Legible
import Diglot.Proofs.Emitted.Tally
import Diglot.Reduction.Piece
import Mathlib.Data.List.Nodup

/-!
# Rendered pieces

If each piece has the text of some tokens and no reference comes before a digit, the pieces are
rendered as the text of all the tokens, with nothing in between. The numbers of captures are their
places in the order in which they open.
-/

namespace Diglot.Reduction

open Emitted

variable {order : List CaptureKey} {p : Piece} {t : Token} {titles : List (Option (List Char))}
  {i j count : Nat}

/-- The text of a piece by itself. -/
def Piece.textWith (order : List CaptureKey) : Piece → Text
  | .text t => t
  | .openCapture _ name => openerText name
  | .backreference key => referenceText (referenceNumber order key)

/-- The name of the capture that a piece opens. -/
def Piece.title? : Piece → Option (Option (List Char))
  | .openCapture _ name => some name
  | _ => none

/-- Whether a piece refers to a capture. -/
def Piece.isReference : Piece → Bool
  | .backreference _ => true
  | _ => false

/-- The tokens spell the piece. -/
structure Piece.Spelled (order : List CaptureKey) (p : Piece) (ts : List Token) : Prop where
  text : p.textWith order = textOf ts
  nonempty : ts ≠ []
  first : p.startsWithDigit → ∀ t ∈ ts.head?, t.startsWithDigit
  last : p.isReference → ∀ t ∈ ts.getLast?, t.isReference
  titles : ts.filterMap (·.captureName?) = p.title?.toList

/-- A piece that is one token. -/
theorem Piece.Spelled.single (ht : p.textWith order = t.text)
    (hd : p.startsWithDigit → t.startsWithDigit) (hr : p.isReference → t.isReference)
    (hc : t.captureName? = p.title?) :
    p.Spelled order [t] where
  text := by simp [ht]
  nonempty := by simp
  first h u hu := by
    rw [← Option.mem_some.1 hu]
    exact hd h
  last h u hu := by
    rw [← Option.mem_some.1 hu]
    exact hr h
  titles := by
    rw [← hc]
    cases h : t.captureName? with
    | none => rw [List.filterMap_cons_none h, List.filterMap_nil, Option.toList_none]
    | some name => rw [List.filterMap_cons_some h, List.filterMap_nil, Option.toList_some]

theorem Piece.Spelled.text_single (h : t.captureName? = none) :
    (Piece.text t.text).Spelled order [t] :=
  .single rfl id (by simp [Piece.isReference]) h

theorem Piece.Spelled.openCapture (key : CaptureKey) (name : Option (List Char)) :
    (Piece.openCapture key name).Spelled order [captureToken name] :=
  .single rfl (by simp [Piece.startsWithDigit]) (by simp [Piece.isReference]) rfl

theorem Piece.Spelled.backreference (key : CaptureKey) :
    (Piece.backreference key).Spelled order [referenceToken (referenceNumber order key)] :=
  .single rfl (by simp [Piece.startsWithDigit]) (fun _ => rfl) rfl

/-- Nothing has to keep a piece apart from those after it, if its tokens are apart from theirs. -/
theorem not_startsWithDigit {rest : List Piece} {ts : List Token} {tss : List (List Token)}
    (hp : p.Spelled order ts) (h : List.Forall₂ (Piece.Spelled order) rest tss) (hr : p.isReference)
    (hc : (ts ++ tss.flatten).IsChain Token.Apart) :
    rest.head?.any (·.startsWithDigit) = false := by
  cases h with
  | nil => rfl
  | @cons q us rest tss hq h =>
    rw [List.isChain_append] at hc
    rw [← Bool.not_eq_true]
    intro hd
    have hlast := hp.last hr _ (List.getLast?_eq_some_getLast hp.nonempty)
    have hhead : us.head hq.nonempty ∈ ((us :: tss).flatten).head? := by
      rw [List.flatten_cons, List.head?_append_of_ne_nil _ hq.nonempty]
      exact List.head?_eq_some_head _
    have hfirst := hq.first hd _ (List.head?_eq_some_head hq.nonempty)
    have hapart := hc.2.2 _ (List.getLast?_eq_some_getLast hp.nonempty) _ hhead hlast
    rw [hfirst] at hapart
    cases hapart

/-- The tokens spell the pieces, one after the other. -/
def SpelledAs (order : List CaptureKey) (pieces : List Piece) (ts : List Token) : Prop :=
  ∃ tss, List.Forall₂ (Piece.Spelled order) pieces tss ∧ tss.flatten = ts

namespace SpelledAs

variable {ps qs : List Piece} {ts us : List Token}

theorem nil : SpelledAs order [] [] := ⟨[], .nil, rfl⟩

theorem append (hp : SpelledAs order ps ts) (hq : SpelledAs order qs us) :
    SpelledAs order (ps ++ qs) (ts ++ us) := by
  obtain ⟨tss, hts, rfl⟩ := hp
  obtain ⟨uss, hus, rfl⟩ := hq
  exact ⟨tss ++ uss, List.rel_append hts hus, List.flatten_append⟩

theorem single (hp : p.Spelled order ts) : SpelledAs order [p] ts :=
  ⟨[ts], .cons hp .nil, by simp⟩

/-- **Spelled pieces are rendered as their tokens.** -/
theorem render_eq (h : SpelledAs order ps ts) (hc : ts.IsChain Token.Apart) :
    render order ps = textOf ts := by
  obtain ⟨tss, hall, rfl⟩ := h
  induction hall with
  | nil => rfl
  | @cons p ts rest tss hp h ih =>
    rw [List.flatten_cons] at hc ⊢
    have hrest := ih (List.isChain_append.1 hc).2.1
    rw [textOf_append, ← hp.text, ← hrest]
    match p, hp with
    | .text t, _ => rfl
    | .openCapture _ none, _ => rfl
    | .openCapture _ (some name), _ => simp [render, Piece.textWith, openerText]
    | .backreference key, hp =>
      rw [render, not_startsWithDigit hp h rfl hc]
      simp [Piece.textWith, referenceText]

/-- The tokens open the captures that the pieces open. -/
theorem titles_eq (h : SpelledAs order ps ts) :
    ts.filterMap (·.captureName?) = ps.filterMap (·.title?) := by
  obtain ⟨tss, hall, rfl⟩ := h
  induction hall with
  | nil => rfl
  | @cons p ts rest tss hp h ih =>
    rw [List.flatten_cons, List.filterMap_append, hp.titles, ih]
    cases hk : p.title? with
    | none => rw [List.filterMap_cons_none hk, Option.toList_none, List.nil_append]
    | some title => rw [List.filterMap_cons_some hk, Option.toList_some, List.singleton_append]

theorem captureCount_eq (h : SpelledAs order ps ts) : captureCount ts = (keys ps).length := by
  rw [captureCount, h.titles_eq, keys, List.length_filterMap_eq_countP,
    List.length_filterMap_eq_countP]
  refine List.countP_congr fun p _ => ?_
  cases p <;> simp [Piece.title?, Piece.key?]

end SpelledAs

/-! ## Titles of captures -/

theorem keys_append (ps qs : List Piece) : keys (ps ++ qs) = keys ps ++ keys qs := by
  simp [keys]

/-- The name of a capture, if the captures before the reduction have these names. Copies and added
captures have none. -/
def titleOf (titles : List (Option (List Char))) : CaptureKey → Option (List Char)
  | .existing i 0 => titles.getD (i - 1) none
  | _ => none

/-- The captures that the pieces open keep their names. -/
def Titled (titles : List (Option (List Char))) (pieces : List Piece) : Prop :=
  ∀ key name, .openCapture key name ∈ pieces → titleOf titles key = name

theorem Titled.append {ps qs : List Piece} (hp : Titled titles ps) (hq : Titled titles qs) :
    Titled titles (ps ++ qs) :=
  fun key name h => (List.mem_append.1 h).elim (hp key name) (hq key name)

theorem Titled.titles_eq {pieces : List Piece} (h : Titled titles pieces) :
    pieces.filterMap (·.title?) = (keys pieces).map (titleOf titles) := by
  rw [keys, List.map_filterMap]
  refine List.filterMap_congr fun p hp => ?_
  cases p with
  | openCapture key name => simp [Piece.title?, Piece.key?, h key name hp]
  | text t => rfl
  | backreference key => rfl

/-! ## Numbers of captures -/

variable {order : List CaptureKey} {key : CaptureKey}

theorem numberOf?_le (h : numberOf? order key = some i) : 0 < i ∧ i ≤ order.length := by
  obtain ⟨j, hj, rfl⟩ := Option.map_eq_some_iff.1 h
  obtain ⟨hlt, -⟩ := List.findIdx?_eq_some_iff_getElem.1 hj
  omega

theorem exists_numberOf? (h : key ∈ order) : ∃ i, numberOf? order key = some i := by
  obtain ⟨j, hj⟩ := Option.isSome_iff_exists.1 (List.isSome_idxOf?.2 h)
  exact ⟨j + 1, by rw [numberOf?, hj]; rfl⟩

theorem numberOf?_eq_some (hn : order.Nodup) (h : order[j]? = some key) :
    numberOf? order key = some (j + 1) := by
  obtain ⟨hlt, rfl⟩ := List.getElem?_eq_some_iff.1 h
  have hidx : order.idxOf? order[j] = some j := by
    rw [List.idxOf?, List.findIdx?_eq_some_iff_getElem]
    refine ⟨hlt, by simp, fun i hi he => ?_⟩
    have hij := (List.Nodup.getElem_inj_iff hn).1 (eq_of_beq he)
    omega
  rw [numberOf?, hidx]
  rfl

theorem getElem?_of_numberOf? (h : numberOf? order key = some i) : order[i - 1]? = some key := by
  obtain ⟨j, hj, rfl⟩ := Option.map_eq_some_iff.1 h
  obtain ⟨hlt, heq, -⟩ := List.findIdx?_eq_some_iff_getElem.1 hj
  rw [Nat.add_sub_cancel, List.getElem?_eq_getElem hlt, eq_of_beq heq]

theorem referenceNumber_eq (h : numberOf? order key = some j) : referenceNumber order key = j := by
  cases key with
  | existing i c => rw [referenceNumber, h, Option.some_or, Option.getD_some]
  | injected n => rw [referenceNumber, h, Option.getD_some]

/-- A reference to a capture that is still there has a number. -/
theorem referenceNumber_le {c : Nat} (h : .existing i 0 ∈ order) :
    0 < referenceNumber order (.existing i c) ∧
      referenceNumber order (.existing i c) ≤ order.length := by
  obtain ⟨n, hn⟩ := exists_numberOf? h
  rw [referenceNumber, hn]
  cases hc : numberOf? order (.existing i c) with
  | some m => simpa using numberOf?_le hc
  | none => simpa using numberOf?_le hn

theorem referenceNumber_injected_le {n : Nat} (h : .injected n ∈ order) :
    0 < referenceNumber order (.injected n) ∧
      referenceNumber order (.injected n) ≤ order.length := by
  obtain ⟨i, hi⟩ := exists_numberOf? h
  rw [referenceNumber, hi]
  exact numberOf?_le hi

/-! ## Orders -/

theorem nodup_map_existing {is : List Nat} (h : is.Nodup) (c : Nat) :
    (is.map (CaptureKey.existing · c)).Nodup :=
  h.map fun _ _ hij => (CaptureKey.existing.inj hij).1

/-- Whether the capture was there before the reduction. -/
def CaptureKey.isKept : CaptureKey → Bool
  | existing _ 0 => true
  | _ => false

/-- The order of captures after the reduction of a pattern with `count` captures: these are still
there, in their order, and each capture is there once. -/
structure Reorders (count : Nat) (order : List CaptureKey) : Prop where
  nodup : order.Nodup
  kept : order.filter (·.isKept) = (List.range' 1 count).map (.existing · 0)
  bounded : ∀ i c, .existing i c ∈ order → 0 < i ∧ i ≤ count

theorem Reorders.mem (h : Reorders count order) : .existing i 0 ∈ order ↔ 0 < i ∧ i ≤ count := by
  constructor
  · exact h.bounded i 0
  · intro hi
    have hmem : CaptureKey.existing i 0 ∈ order.filter (·.isKept) := by
      rw [h.kept]
      exact List.mem_map.2 ⟨i, List.mem_range'_1.2 (by omega), rfl⟩
    exact (List.mem_filter.1 hmem).1

/-- The captures that were there before have their new numbers in the order of the old ones. -/
theorem Reorders.numberOf?_lt {a b : Nat} (h : Reorders count order) (hij : i < j)
    (ha : numberOf? order (.existing i 0) = some a) (hb : numberOf? order (.existing j 0) = some b)
    :
    a < b := by
  have hkept : (order.filter (·.isKept)).Pairwise fun x y =>
      ∀ i j, x = .existing i 0 → y = .existing j 0 → i < j := by
    rw [h.kept, List.pairwise_map]
    refine (List.pairwise_lt_range' ..).imp fun hlt i j hi hj => ?_
    rwa [← (CaptureKey.existing.inj hi).1, ← (CaptureKey.existing.inj hj).1]
  have hpairwise := List.pairwise_iff_getElem.1 (List.pairwise_filter.1 hkept)
  obtain ⟨hlta, hgeta⟩ := List.getElem?_eq_some_iff.1 (getElem?_of_numberOf? ha)
  obtain ⟨hltb, hgetb⟩ := List.getElem?_eq_some_iff.1 (getElem?_of_numberOf? hb)
  have hposa := (numberOf?_le ha).1
  have hposb := (numberOf?_le hb).1
  rcases Nat.lt_trichotomy (a - 1) (b - 1) with hlt | heq | hlt
  · omega
  · simp only [heq, hgetb, CaptureKey.existing.injEq] at hgeta
    omega
  · have := hpairwise _ _ hltb hlta hlt
    rw [hgeta, hgetb] at this
    exact absurd (this rfl rfl j i rfl rfl) (Nat.lt_asymm hij)

end Diglot.Reduction
