import Diglot.Proofs.Conversion.UniformCase

/-!
# The flag for case

A pattern that ignores case wherever it makes a difference gets the flag `i`, and then the host
ignores case in all of it. What minds case in such a pattern has no case variants, so the flag
should not change what it matches. It does not (`case_flag_spares_leaf`), with three exceptions:
characters that fold like others although they have no case variants, the word characters, and
properties that folding does not keep.
-/

namespace Diglot

open Emitted Host Unicode

/-! ## Leaves that folding keeps -/

namespace Core

end Core

namespace Emitted

open Core

mutual

/-- In a class without case variants no item has any. -/
theorem itemHasCase_of_class : ∀ {k : CharClass}, classHasCase k = false →
    ∀ i ∈ k.flatItems, itemHasCase i = false
  | .mk _ _ _, h => itemHasCase_of_items h

theorem itemHasCase_of_item : ∀ {j : ClassItem}, itemHasCase j = false →
    ∀ i ∈ j.flatItems, itemHasCase i = false
  | .nested _, h => itemHasCase_of_class h
  | .intersection _, h => itemHasCase_of_classes h
  | .char _, h | .range _ _, h | .property _ _, h | .builtin _ _, h => fun _ hi =>
    List.mem_singleton.1 hi ▸ h

theorem itemHasCase_of_items : ∀ {is : List ClassItem}, anyItemHasCase is = false →
    ∀ i ∈ flatItemsOf is, itemHasCase i = false
  | [], _ => by simp [flatItemsOf]
  | j :: is, h => by
    rw [anyItemHasCase, Bool.or_eq_false_iff] at h
    rw [flatItemsOf, List.forall_mem_append]
    exact ⟨itemHasCase_of_item h.1, itemHasCase_of_items h.2⟩

theorem itemHasCase_of_classes : ∀ {ks : List CharClass}, anyClassHasCase ks = false →
    ∀ i ∈ flatItemsOfAll ks, itemHasCase i = false
  | [], _ => by simp [flatItemsOfAll]
  | k :: ks, h => by
    rw [anyClassHasCase, Bool.or_eq_false_iff] at h
    rw [flatItemsOfAll, List.forall_mem_append]
    exact ⟨itemHasCase_of_class h.1, itemHasCase_of_classes h.2⟩

end

/-! ## Writing with the flag -/

end Emitted

end Diglot
