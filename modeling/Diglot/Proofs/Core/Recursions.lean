import Diglot.Proofs.Emitted.Spelling

/-!
# Recursions of core trees

Where the recursions of a core tree are: each with its target and with the captures around it, given
by how many captures open before them.
-/

namespace Diglot.Core

namespace Node

mutual

/-- The recursions of a tree in the order of the walk, each with the captures around it. -/
def recursions : Node → List (Nat × List Nat)
  | recursion target => [(target, [])]
  | capture _ _ _ _ body => body.recursions.map fun r => (r.1, 0 :: r.2.map (· + 1))
  | sequence ns | alternation ns => recursionsAll ns
  | group body | atomic body | look _ body | repeated body _ => body.recursions
  | _ => []

/-- The recursions of several trees. -/
def recursionsAll : List Node → List (Nat × List Nat)
  | [] => []
  | n :: ns =>
    n.recursions ++ (recursionsAll ns).map fun r => (r.1, r.2.map (· + n.headings.length))

end

/-- The target of a node, if it is a recursion. -/
def target? : Node → Option Nat
  | recursion target => some target
  | _ => none

mutual

theorem targets_recursions (n : Node) : n.recursions.map (·.1) = n.walk.filterMap target? := by
  cases n with
  | sequence ns | alternation ns =>
    rw [recursions, walk, targets_recursionsAll ns]
    rfl
  | capture _ _ _ _ body =>
    rw [recursions, walk, List.filterMap_cons_none rfl, ← targets_recursions body, List.map_map]
    rfl
  | group body | atomic body | look _ body | repeated body =>
    rw [recursions, walk, List.filterMap_cons_none rfl, targets_recursions body]
  | _ => simp [recursions, walk, target?]

theorem targets_recursionsAll : ∀ (ns : List Node),
    (recursionsAll ns).map (·.1) = (walkAll ns).filterMap target?
  | [] => rfl
  | n :: ns => by
    rw [recursionsAll, walkAll, List.map_append, List.filterMap_append, targets_recursions n,
      ← targets_recursionsAll ns, List.map_map]
    rfl

end

theorem headingsAll_append (ns ms : List Node) :
    headingsAll (ns ++ ms) = headingsAll ns ++ headingsAll ms := by
  induction ns with
  | nil => rfl
  | cons n ns ih => simp [ih]

theorem recursionsAll_append (ns ms : List Node) :
    recursionsAll (ns ++ ms) = recursionsAll ns
      ++ (recursionsAll ms).map fun r => (r.1, r.2.map (· + (headingsAll ns).length)) := by
  induction ns with
  | nil => simp [recursionsAll]
  | cons n ns ih =>
    simp only [List.cons_append, recursionsAll, ih, List.map_append, List.map_map, headingsAll_cons,
      List.length_append, List.append_assoc]
    refine congrArg _ (congrArg _ (List.map_congr_left fun r _ => ?_))
    simp only [Function.comp_apply, List.map_map]
    refine congrArg _ (List.map_congr_left fun i _ => ?_)
    simp only [Function.comp_apply]
    omega

theorem allPlain_append {ns ms : List Node} (hn : Emitted.AllPlain ns) (hm : Emitted.AllPlain ms) :
    Emitted.AllPlain (ns ++ ms) := by
  induction ns with
  | nil => exact hm
  | cons n ns ih => exact ⟨hn.1, ih hn.2⟩

theorem eq_empty_of_isEmpty {n : Node} (h : n.isEmpty) : n = empty := by
  cases n <;> first | rfl | cases h

/-! ## Trees with the same contents -/

/-- The second tree has the captures and the recursions of the first, and is plain if the first
is. -/
structure Agrees (n m : Node) : Prop where
  plain : Emitted.Plain n → Emitted.Plain m
  headings : m.headings = n.headings
  recursions : m.recursions = n.recursions

theorem Agrees.refl (n : Node) : n.Agrees n := ⟨id, rfl, rfl⟩

theorem Agrees.trans {n m k : Node} (h : n.Agrees m) (h' : m.Agrees k) : n.Agrees k :=
  ⟨h'.plain ∘ h.plain, h'.headings.trans h.headings, h'.recursions.trans h.recursions⟩

theorem agrees_singleton (n : Node) : (sequence [n]).Agrees n where
  plain h := h.1
  headings := by simp
  recursions := by simp [Node.recursions, recursionsAll]

theorem agrees_sequence_singleton (n : Node) : n.Agrees (sequence [n]) where
  plain h := ⟨h, trivial⟩
  headings := by simp
  recursions := by simp [Node.recursions, recursionsAll]

theorem agrees_filter (ns : List Node) :
    (sequence ns).Agrees (sequence (ns.filter (!·.isEmpty))) := by
  induction ns with
  | nil => exact .refl _
  | cons n ns ih =>
    cases hn : n.isEmpty with
    | true =>
      obtain rfl := eq_empty_of_isEmpty hn
      have hdrop : (sequence (empty :: ns)).Agrees (sequence ns) := by
        refine ⟨fun h => h.2, by simp, ?_⟩
        simp [Node.recursions, recursionsAll]
      simpa [hn] using hdrop.trans ih
    | false =>
      rw [List.filter_cons_of_pos (by simp [hn])]
      refine ⟨fun h => ⟨h.1, ih.plain h.2⟩, ?_, ?_⟩
      · have h := ih.headings
        simp only [headings_sequence] at h
        simp [h]
      · have h := ih.recursions
        simp only [Node.recursions] at h
        simp [Node.recursions, recursionsAll, h]

/-- Parts one after the other stay what they are when empty ones are dropped. -/
theorem agrees_ofSequence (ns : List Node) : (sequence ns).Agrees (ofSequence ns) := by
  refine (agrees_filter ns).trans ?_
  unfold ofSequence
  split
  next h =>
    rw [h]
    exact ⟨fun _ => trivial, by simp, rfl⟩
  next h =>
    rw [h]
    exact agrees_singleton _
  next => exact .refl _

end Node

end Diglot.Core
