import Diglot.Emitted.ClassText
import Diglot.Proofs.Unicode.PropertyName
import Mathlib.Data.Char
import Mathlib.Data.List.Sort

/-!
# Case variants of characters and ranges

The variants of a character are the single characters that its case mappings lead to. The variants
of a range that lie outside are given as ranges: these have just the characters that are asked for,
and between two of them there is a character left out (`variantsOfRange_exact`).
-/

namespace Diglot.Unicode

variable {a b c d v : Char} {cs : List Char}

/-! ## Sorting -/

theorem eraseReps_loop {acc : List Char} (h : (a :: cs).Pairwise (· ≤ ·))
    (hacc : (a :: acc).Pairwise (· > ·)) :
    (List.eraseRepsBy.loop (· == ·) a cs acc).Pairwise (· < ·) ∧
      ∀ d, d ∈ List.eraseRepsBy.loop (· == ·) a cs acc ↔ d ∈ a :: cs ∨ d ∈ acc := by
  induction cs generalizing a acc with
  | nil =>
    rw [List.eraseRepsBy.loop]
    exact ⟨List.pairwise_reverse.2 hacc, fun d => by simp [or_comm]⟩
  | cons b cs ih =>
    obtain ⟨hle, hrest⟩ := List.pairwise_cons.1 h
    rw [List.eraseRepsBy.loop]
    split
    next heq =>
      obtain rfl : a = b := by simpa using heq
      obtain ⟨hsorted, hmem⟩ := ih hrest hacc
      exact ⟨hsorted, fun d => by simp [hmem]⟩
    next hne =>
      have hlt : a < b := lt_of_le_of_ne (hle b List.mem_cons_self) (by simpa using hne)
      have hnext : (b :: a :: acc).Pairwise (· > ·) := by
        refine List.pairwise_cons.2 ⟨List.forall_mem_cons.2 ⟨hlt, fun d hd => ?_⟩, hacc⟩
        exact lt_trans ((List.pairwise_cons.1 hacc).1 d hd) hlt
      obtain ⟨hsorted, hmem⟩ := ih hrest hnext
      refine ⟨hsorted, fun d => ?_⟩
      rw [hmem, List.mem_cons (b := a), List.mem_cons (b := a), or_left_comm, or_assoc]

/-- The characters of a list in ascending order, each of them once. -/
theorem sortedChars_spec (cs : List Char) :
    (sortedChars cs).Pairwise (· < ·) ∧ ∀ d, d ∈ sortedChars cs ↔ d ∈ cs := by
  have hsorted := List.pairwise_mergeSort' (· ≤ ·) cs
  have hmem (d : Char) : d ∈ cs.mergeSort (· ≤ ·) ↔ d ∈ cs := List.mem_mergeSort
  rw [sortedChars]
  cases hs : cs.mergeSort (· ≤ ·) with
  | nil =>
    rw [hs] at hmem
    exact ⟨.nil, hmem⟩
  | cons c rest =>
    rw [hs] at hsorted hmem
    obtain ⟨hpairwise, hloop⟩ := eraseReps_loop hsorted (List.pairwise_singleton _ c)
    exact ⟨hpairwise, fun d => (hloop d).trans (by simpa using hmem d)⟩

/-! ## Characters -/

/-- The only character that a case mapping leads to, other than the character itself. -/
def IsVariant (c v : Char) : Prop :=
  v ≠ c ∧ (lower c = [v] ∨ upper c = [v] ∨ ∃ u, upper c = [u] ∧ lower u = [v])

theorem some_eq_single? : some c = single? cs ↔ cs = [c] := by
  unfold single?
  split <;> simp_all [eq_comm]

theorem mem_caseVariants : v ∈ caseVariants c ↔ IsVariant c v := by
  have hsmall : some v = (single? (upper c)).bind (fun u => single? (lower u)) ↔
      ∃ u, upper c = [u] ∧ lower u = [v] := by
    simp only [eq_comm (a := some v), Option.bind_eq_some_iff]
    simp only [eq_comm (b := some _), some_eq_single?]
  rw [caseVariants, (sortedChars_spec _).2, IsVariant, List.mem_filter, and_comm]
  simp [some_eq_single?, hsmall]

theorem mem_charRange : c ∈ charRange a b ↔ a ≤ c ∧ c ≤ b := by
  rw [charRange, List.mem_filterMap]
  constructor
  · rintro ⟨n, hn, hc⟩
    obtain ⟨hvalid, hchar⟩ := Option.dite_none_right_eq_some.1 hc
    cases hchar
    have hbounds := List.mem_range'_1.1 hn
    show a.toNat ≤ n ∧ n ≤ b.toNat
    omega
  · rintro ⟨hac, hcb⟩
    have h₁ : a.toNat ≤ c.toNat := hac
    have h₂ : c.toNat ≤ b.toNat := hcb
    exact ⟨c.toNat, List.mem_range'_1.2 ⟨h₁, by omega⟩, dif_pos c.valid⟩

/-! ## Ranges -/

/-- The character lies in one of the ranges. -/
def Covers (rs : List (Char × Char)) (c : Char) : Prop :=
  ∃ r ∈ rs, r.1 ≤ c ∧ c ≤ r.2

/-- The ranges hold just the characters of the list, and there are gaps between them. -/
structure Joins (cs : List Char) (rs : List (Char × Char)) : Prop where
  ordered : ∀ r ∈ rs, r.1 ≤ r.2
  apart : rs.Pairwise fun r t => r.2.toNat + 1 < t.1.toNat
  covers : ∀ c, Covers rs c ↔ c ∈ cs

theorem covers_cons {r : Char × Char} {rs : List (Char × Char)} :
    Covers (r :: rs) c ↔ (r.1 ≤ c ∧ c ≤ r.2) ∨ Covers rs c := by
  simp [Covers]

/-- The characters of an ascending list are joined to ranges with gaps between them. -/
theorem joins_joinRanges (h : cs.Pairwise (· < ·)) : Joins cs (joinRanges cs) := by
  induction cs with
  | nil => exact ⟨by simp [joinRanges], .nil, by simp [Covers, joinRanges]⟩
  | cons c cs ih =>
    obtain ⟨hc, hcs⟩ := List.pairwise_cons.1 h
    obtain ⟨hordered, hapart, hcovers⟩ := ih hcs
    rw [joinRanges]
    split
    next first last rest hjoin =>
      rw [hjoin] at hordered hapart hcovers
      obtain ⟨hspan, hrest⟩ := List.forall_mem_cons.1 hordered
      obtain ⟨hgaps, hpairwise⟩ := List.pairwise_cons.1 hapart
      have hfirst : c < first := hc _ ((hcovers first).1 (covers_cons.2 (.inl ⟨le_rfl, hspan⟩)))
      split
      next hnext =>
        -- the first range begins one character earlier
        have hbegin (d : Char) : c ≤ d ↔ d = c ∨ first ≤ d := by
          rw [← Char.toNat_inj]
          show c.toNat ≤ d.toNat ↔ d.toNat = c.toNat ∨ first.toNat ≤ d.toNat
          omega
        have hlast : c ≤ last := hfirst.le.trans hspan
        refine ⟨List.forall_mem_cons.2 ⟨hlast, hrest⟩, List.pairwise_cons.2 ⟨hgaps, hpairwise⟩, ?_⟩
        intro d
        rw [covers_cons, List.mem_cons, ← hcovers d, covers_cons, ← or_assoc]
        refine or_congr_left ?_
        show c ≤ d ∧ d ≤ last ↔ d = c ∨ first ≤ d ∧ d ≤ last
        rw [hbegin, or_and_right]
        exact or_congr_left (and_iff_left_of_imp fun heq => heq ▸ hlast)
      next hne =>
        have hgap : c.toNat + 1 < first.toNat := by
          have hlt : c.toNat < first.toNat := hfirst
          omega
        refine ⟨List.forall_mem_cons.2 ⟨le_rfl, hordered⟩, List.pairwise_cons.2 ⟨?_, hapart⟩, ?_⟩
        · refine List.forall_mem_cons.2 ⟨hgap, fun t ht => ?_⟩
          have hfar : last.toNat + 1 < t.1.toNat := hgaps t ht
          have hle : first.toNat ≤ last.toNat := hspan
          show c.toNat + 1 < t.1.toNat
          omega
        · intro d
          rw [covers_cons, hcovers, List.mem_cons, ← le_antisymm_iff, eq_comm]
    next hjoin =>
      rw [hjoin] at hcovers
      refine ⟨by simp, List.pairwise_singleton _ _, fun d => ?_⟩
      rw [covers_cons, hcovers, List.mem_cons, ← le_antisymm_iff, eq_comm]

/-- Between two code points with a gap there is a character, unless the gap is the surrogates. -/
theorem exists_between (h : c.toNat + 1 < d.toNat) (hd : d ≠ '\uE000') : ∃ e, c < e ∧ e < d := by
  by_cases hv : (c.toNat + 1).isValidChar
  · exact ⟨Char.ofNatAux _ hv, Nat.lt_succ_self _, h⟩
  · have hcv : c.toNat.isValidChar := c.valid
    have hdv : d.toNat.isValidChar := d.valid
    have hne : d.toNat ≠ 0xE000 := fun heq => hd (Char.toNat_inj.1 heq)
    unfold Nat.isValidChar at hv hcv hdv
    refine ⟨'\uE000', ?_, ?_⟩
    · show c.toNat < 0xE000
      omega
    · show 0xE000 < d.toNat
      omega

theorem not_isVariant_private (c : Char) : ¬ IsVariant c '\uE000' := by
  have hmark : '\uE000' ∈ marks := by decide
  have hlower {c : Char} (h : lower c = ['\uE000']) : c = '\uE000' :=
    eq_of_mem_lower hmark (by simp [h])
  have hupper {c : Char} (h : upper c = ['\uE000']) : c = '\uE000' :=
    eq_of_mem_upper hmark (by simp [h])
  rintro ⟨hne, h | h | ⟨u, hu, h⟩⟩
  · exact hne (hlower h).symm
  · exact hne (hupper h).symm
  · exact hne (hupper (hlower h ▸ hu)).symm

end Diglot.Unicode

namespace Diglot.Emitted

open Unicode

/-- **The variants of a range are covered exactly.** Ranges come in ascending order, and after each
there is a character that is left out before the next. -/
theorem variantsOfRange_exact (s : ClassStyle) {a b : Char} (hab : a ≤ b)
    (hwidth : b.toNat - a.toNat ≤ 0x3000) : ∃ rs, s.variantsOfRange a b = .ok rs ∧
      (∀ r ∈ rs, r.1 ≤ r.2) ∧ (rs.Pairwise fun r t => ∃ d, r.2 < d ∧ d < t.1) ∧
      ∀ v, Covers rs v ↔ (∃ c, a ≤ c ∧ c ≤ b ∧ IsVariant c v) ∧ ¬ (a ≤ v ∧ v ≤ b) := by
  obtain ⟨hordered, hapart, hjoined⟩ := joins_joinRanges (sortedChars_spec
    (((charRange a b).flatMap caseVariants).filter fun v => !(a ≤ v && v ≤ b))).1
  rw [← rangeVariants] at hordered hapart hjoined
  have hcovers (v : Char) : Covers (rangeVariants a b) v ↔
      (∃ c, a ≤ c ∧ c ≤ b ∧ IsVariant c v) ∧ ¬ (a ≤ v ∧ v ≤ b) := by
    rw [hjoined, (sortedChars_spec _).2, List.mem_filter, List.mem_flatMap]
    simp [mem_charRange, mem_caseVariants, and_assoc, imp_iff_not_or]
  refine ⟨rangeVariants a b, ?_, hordered, ?_, hcovers⟩
  · have hnot : ¬ (b < a || widestExpansion < b.toNat - a.toNat) := by
      simp only [Bool.or_eq_true, decide_eq_true_eq, not_or, not_lt]
      exact ⟨hab, hwidth⟩
    rw [ClassStyle.variantsOfRange, if_neg hnot]
    rfl
  · refine hapart.imp_of_mem fun {r t} _ ht hgap => exists_between hgap fun hprivate => ?_
    have hstart := (hcovers t.1).1 ⟨t, ht, le_rfl, hordered t ht⟩
    obtain ⟨c, -, -, hvariant⟩ := hstart.1
    exact not_isVariant_private c (hprivate ▸ hvariant)

/-- The capital forms of the letters from the sharp s on are in ranges with gaps. -/
theorem variantsOfRange_exact_sharp_s : ∃ rs,
    ClassStyle.variantsOfRange ⟨true, true, true⟩ 'ß' 'ÿ' = .ok rs ∧
      Covers rs 'À' ∧ Covers rs 'Ÿ' ∧ ¬ Covers rs 'ß' := by
  obtain ⟨rs, hrs, -, -, hcovers⟩ :=
    variantsOfRange_exact ⟨true, true, true⟩ (show 'ß' ≤ 'ÿ' by decide) (by decide)
  have hvariants : upper 'à' = ['À'] ∧ upper 'ÿ' = ['Ÿ'] := by decide +kernel
  refine ⟨rs, hrs, (hcovers _).2 ⟨⟨'à', ?_⟩, by decide⟩, (hcovers _).2 ⟨⟨'ÿ', ?_⟩, by decide⟩, ?_⟩
  · exact ⟨by decide, by decide, by decide, .inr (.inl hvariants.1)⟩
  · exact ⟨by decide, by decide, by decide, .inr (.inl hvariants.2)⟩
  · exact fun h => ((hcovers _).1 h).2 (by decide)

end Diglot.Emitted
