import Diglot.Emitted.Writer
import Diglot.Proofs.CaptureLayout

/-!
# The captures that a reference means

A reference to source groups means captures of the written pattern: of each group those that have
been opened before, and all of them if none has. `Numbering.meant` says so for the whole list of
captures at once, the last capture first. The writer collects the same captures group by group
(`reverse_candidates`).
-/

namespace Diglot

variable {ms targets : List Nat} {i opened : Nat}

/-! ## Ascending lists -/

theorem mem_foldr_insertAscending {k : Nat} {ns : List Nat} :
    k ∈ ns.foldr insertAscending ms ↔ k ∈ ns ∨ k ∈ ms := by
  induction ns with
  | nil => simp
  | cons n ns ih => simp [ih, or_assoc]

theorem pairwise_foldr_insertAscending (h : ms.Pairwise (· < ·)) (ns : List Nat) :
    (ns.foldr insertAscending ms).Pairwise (· < ·) := by
  induction ns with
  | nil => exact h
  | cons n ns ih => exact pairwise_insertAscending ih n

namespace Emitted

variable {n : Numbering}

namespace Numbering

/-- The captures are counted from 1, one by one. -/
def Counts (n : Numbering) : Prop :=
  n.entries.map (·.1) = List.range' 1 n.entries.length

theorem counts_of (root : Core.Node) : (Numbering.of root).Counts := by
  unfold Counts Numbering.of
  rw [List.map_map, List.length_map, List.length_zipIdx]
  refine List.ext_getElem (by simp) fun i h₁ h₂ => ?_
  simp [Nat.add_comm]

theorem Counts.pairwise (h : n.Counts) : (n.entries.map (·.1)).Pairwise (· < ·) := by
  rw [h]
  exact List.pairwise_lt_range'

theorem Counts.le (h : n.Counts) {e : CaptureEntry} (he : (i, e) ∈ n.entries) :
    0 < i ∧ i ≤ n.entries.length := by
  have hi : i ∈ n.entries.map (·.1) := List.mem_map_of_mem he
  rw [h, List.mem_range'] at hi
  obtain ⟨k, hk, rfl⟩ := hi
  omega

theorem mem_indices {number : Nat} :
    i ∈ n.indices number ↔ ∃ e, (i, e) ∈ n.entries ∧ e.number = number := by
  simp only [indices, List.mem_filterMap, Prod.exists]
  constructor
  · rintro ⟨j, e, he, hj⟩
    split at hj
    · next hn => exact ⟨e, by rwa [← Option.some.inj hj], hn⟩
    · cases hj
  · rintro ⟨e, he, hn⟩
    exact ⟨i, e, he, by rw [if_pos hn]⟩

/-- The captures that a reference to `targets` means when `opened` captures have been opened, the
last one first. -/
def meant (n : Numbering) (opened : Nat) (targets : List Nat) : List Nat :=
  ((n.entries.filter fun (i, e) =>
    targets.contains e.number && (i ≤ opened || (n.indices e.number).all (opened < ·))).map
      (·.1)).reverse

theorem mem_meant :
    i ∈ n.meant opened targets ↔ ∃ e, (i, e) ∈ n.entries ∧ e.number ∈ targets ∧
      (i ≤ opened ∨ ∀ j ∈ n.indices e.number, opened < j) := by
  simp [meant, and_assoc]

end Numbering

open Numbering

theorem pairwise_candidates (n : Numbering) (opened : Nat) (targets : List Nat) :
    (candidates n opened targets).1.Pairwise (· < ·) := by
  induction targets with
  | nil => simp [candidates]
  | cons target targets ih =>
    simp only [candidates]
    split_ifs
    · exact pairwise_foldr_insertAscending ih _
    · exact pairwise_foldr_insertAscending ih _

theorem mem_candidates :
    i ∈ (candidates n opened targets).1 ↔ ∃ target ∈ targets, i ∈ n.indices target ∧
      (i ≤ opened ∨ ∀ j ∈ n.indices target, opened < j) := by
  induction targets with
  | nil => simp [candidates]
  | cons target targets ih =>
    simp only [candidates, List.mem_cons, exists_eq_or_imp, ← ih]
    split_ifs with hempty
    · have hall : ∀ j ∈ n.indices target, opened < j := by
        simpa [List.filter_eq_nil_iff] using hempty
      rw [mem_foldr_insertAscending]
      constructor
      · rintro (h | h)
        · exact .inl ⟨h, .inr hall⟩
        · exact .inr h
      · rintro (⟨h, -⟩ | h)
        · exact .inl h
        · exact .inr h
    · -- some capture of the group has been opened, so those that have not are not meant
      have hnot : ¬ ∀ j ∈ n.indices target, opened < j := by
        simpa [List.filter_eq_nil_iff] using hempty
      rw [mem_foldr_insertAscending, List.mem_filter, decide_eq_true_eq]
      constructor
      · rintro (h | h)
        · exact .inl ⟨h.1, .inl h.2⟩
        · exact .inr h
      · rintro (⟨h, hle | hall⟩ | h)
        · exact .inl ⟨h, hle⟩
        · exact absurd hall hnot
        · exact .inr h

/-- **The writer collects the captures that a reference means.** -/
theorem reverse_candidates (hn : n.Counts) (opened : Nat) (targets : List Nat) :
    (candidates n opened targets).1.reverse = n.meant opened targets := by
  rw [List.reverse_eq_iff]
  refine (pairwise_candidates n opened targets).eq_of_mem_iff ?_ fun i => ?_
  · rw [meant, List.reverse_reverse]
    exact hn.pairwise.sublist (List.filter_sublist.map _)
  · rw [mem_candidates, List.mem_reverse, mem_meant]
    simp only [mem_indices]
    constructor
    · rintro ⟨target, ht, ⟨e, he, rfl⟩, h⟩
      exact ⟨e, he, ht, h⟩
    · rintro ⟨e, he, ht, h⟩
      exact ⟨e.number, ht, ⟨e, he, rfl⟩, h⟩

end Emitted

end Diglot
