import Diglot.Core.SearchStart
import Diglot.Proofs.Source.Reading
import Diglot.Source.Pattern

/-!
# Capture groups of source trees

Once a tree has been numbered, its capture groups in the order in which they open are the registered
groups, each with its number and its name. Neither the resolution of references nor the removal of a
leading anchor changes the groups or any name.
-/

namespace Diglot.Source

variable {n n' : Node} {o : ReadOptions} {text : List Char} {p : Pattern}

/-! ## Trees with the same groups and names -/

/-- The second tree has the capture groups of the first, and no elements that the first has not. -/
structure Node.Alike (n n' : Node) : Prop where
  captures : n'.captures = n.captures
  elements : n'.elements ⊆ n.elements

/-- `Node.Alike` for several trees. -/
structure AlikeAll (ns ns' : List Node) : Prop where
  captures : capturesAll ns' = capturesAll ns
  elements : elementsAll ns' ⊆ elementsAll ns

theorem Node.Alike.refl (n : Node) : n.Alike n := ⟨rfl, fun _ h => h⟩

theorem Node.Alike.keeps (h : n.Alike n') {r : NameRule} (hk : n.keeps r) : n'.keeps r := by
  rw [keeps_eq, List.all_eq_true] at *
  exact fun e he => hk e (h.elements he)

theorem Node.Alike.group (h : n.Alike n') (kind : GroupKind) :
    (Node.group kind n).Alike (.group kind n') where
  captures := by cases kind <;> simp [Node.captures, h.captures]
  elements := List.cons_subset_cons _ h.elements

theorem Node.Alike.cons {ns ns' : List Node} (h : n.Alike n') (hs : AlikeAll ns ns') :
    AlikeAll (n :: ns) (n' :: ns') where
  captures := by rw [capturesAll, capturesAll, h.captures, hs.captures]
  elements := List.append_subset.2 ⟨List.subset_append_of_subset_left _ h.elements,
    List.subset_append_of_subset_right _ hs.elements⟩

/-! ## Leading anchors -/

theorem captures_of_isSearchStart (h : n.isSearchStart) : n.captures = [] := by
  unfold Node.isSearchStart at h
  split at h
  · rfl
  · cases h

theorem captures_of_isLineOrSearchStart (h : n.isLineOrSearchStart) : n.captures = [] := by
  unfold Node.isLineOrSearchStart at h
  split at h
  · rfl
  · rfl
  · cases h

/-- What is an anchor or no more than an anchor may be dropped. -/
theorem alike_empty (h : n.captures = []) : n.Alike .empty :=
  ⟨h.symm, List.nil_subset _⟩

mutual

theorem alike_withoutAnchor : ∀ (n : Node), n.leadingStrategy?.isSome → n.Alike n.withoutAnchor
  | .alternation ns, h => by
    rw [Node.leadingStrategy?] at h
    rw [Node.withoutAnchor]
    split at h
    next hs => exact ⟨(alike_withoutAnchors ns hs).captures, (alike_withoutAnchors ns hs).elements⟩
    next => cases h
  | .sequence (n :: ns), h => by
    rw [Node.leadingStrategy?] at h
    rw [Node.withoutAnchor]
    have hs : AlikeAll (n :: ns) (n.withoutAnchor :: ns) :=
      (alike_withoutAnchor n h).cons ⟨rfl, fun _ h => h⟩
    exact ⟨hs.captures, hs.elements⟩
  | .sequence [], h => by cases h
  | .group (.flags change) body, h => by
    rw [Node.leadingStrategy?] at h
    exact (alike_withoutAnchor body h).group _
  | .group (.capture k name) body, h => by
    rw [Node.leadingStrategy?] at h
    exact (alike_withoutAnchor body h).group _
  | .group .plain body, h => by
    rw [Node.leadingStrategy?] at h
    split at h
    next hb => exact alike_empty (n := .group .plain body) (captures_of_isLineOrSearchStart hb :)
    next => cases h
  | .group (.look l) body, h => by
    have hb : body.isSearchStart := by
      obtain ⟨_ | _, _ | _⟩ := l <;> simp [Node.leadingStrategy?] at h
      exact h
    exact alike_empty (n := .group (.look l) body) (captures_of_isSearchStart hb :)
  | .assertion _, _ => alike_empty rfl

theorem alike_withoutAnchors : ∀ (ns : List Node), Node.allSearchStart ns →
    AlikeAll ns (Node.withoutAnchors ns)
  | [], _ => ⟨rfl, fun _ h => h⟩
  | n :: ns, h => by
    rw [Node.allSearchStart, Bool.and_eq_true, beq_iff_eq] at h
    exact (alike_withoutAnchor n (by rw [h.1]; rfl)).cons (alike_withoutAnchors ns h.2)

end

/-- A pattern without its leading anchor has the groups of the pattern. -/
theorem alike_splitStrategy (singleline : Bool) (n : Node) :
    n.Alike (n.splitStrategy singleline).2 := by
  unfold Node.splitStrategy
  split
  next => exact .refl n
  next h => exact alike_withoutAnchor n (by rw [h]; rfl)
  next h => exact alike_withoutAnchor n (by rw [h]; rfl)

/-! ## Patterns -/

/-- **The groups of a pattern that is read have been numbered, and its references resolved.** -/
theorem exists_of_read (h : Pattern.read o text = .ok p) :
    ∃ tree es k, Node.ofText o.flags.extended text = .ok tree ∧
      Numbered (tree.hasNamedGroup && !o.captureGroup) {} p.groups tree.elements es ∧
      resolveElements ⟨p.groups, tree.hasNamedGroup && !o.captureGroup, o.allowOrphans⟩ 0 es
        = .ok (p.root.elements, k) := by
  obtain ⟨tree, htree, h⟩ := exists_of_bind_eq_ok h
  obtain ⟨⟨root, k⟩, hroot, h⟩ := exists_of_bind_eq_ok h
  cases h
  refine ⟨tree, _, k, htree, elements_number _ tree {}, ?_⟩
  rw [← elements_resolve, hroot]
  rfl

/-- All groups have been registered. -/
theorem Numbered.eq_toList {u : Bool} {g : Groups} {es es' : List Element}
    (h : Numbered u {} g es es') : es'.filterMap (·.capture?) = g.toList := by
  have hnames : g.names = (es'.filterMap (·.capture?)).map (·.2) := by simpa using h.names
  have hnumbers : (es'.filterMap (·.capture?)).map (·.1)
      = List.range' 1 (es'.filterMap (·.capture?)).length := by
    rw [h.elements, numbers_numberElements, openedBy_eq]
    rfl
  rw [Groups.toList, hnames]
  refine List.ext_getElem (by simp) fun i h₁ h₂ => Prod.ext ?_ (by simp)
  have hnumber := congrArg (·[i]?) hnumbers
  rw [List.getElem?_map, List.getElem?_eq_getElem h₁, List.getElem?_range' h₁] at hnumber
  simpa [Nat.add_comm] using hnumber

/-- **The capture groups of a pattern are those that were registered**, and its names are
readable. -/
theorem captures_of_read (h : Pattern.read o text = .ok p) :
    p.root.captures = p.groups.toList ∧ p.root.keeps .readable := by
  obtain ⟨tree, es, k, htree, hnumbered, hresolved⟩ := exists_of_read h
  have herase := erase_resolveElements hresolved
  constructor
  · rw [captures_eq, filterMap_of_erase (fun e => by cases e <;> rfl) herase, hnumbered.eq_toList]
  · rw [keeps_eq, all_of_erase (fun e => by cases e <;> rfl) herase, hnumbered.elements]
    refine keeps_numberElements ?_
    rw [← keeps_eq]
    exact keeps_of_ofText htree

end Diglot.Source
