import Diglot.Proofs.Core.Clones
import Diglot.Proofs.Source.WellFormed

/-!
# References of lowered trees

Lowering takes the targets of a reference as they are: the references of a lowered pattern have the
targets that references of the source pattern have. So a reference to no group is one of the source
pattern (`orphan_of_lower`), and it is only read where that is allowed (`allowOrphans_of_read`).
-/

namespace Diglot

namespace Source

variable {n c : Node}

/-! ## Orphans -/

/-- A reference to a group that the pattern does not have. -/
def Pattern.HasOrphan (p : Pattern) : Prop :=
  ∃ place n, .backreference place (.number n) [] ∈ p.root.elements ∧ p.groups.count < n

/-- A reference without targets is one by a number that is too large, and it has been allowed. -/
theorem allowOrphans_of_read {o : ReadOptions} {text : List Char} {p : Pattern}
    (h : Pattern.read o text = .ok p) {place : Nat} {ref : Reference}
    (hmem : .backreference place ref [] ∈ p.root.elements) :
    o.allowOrphans = true ∧ p.HasOrphan := by
  obtain ⟨_, _, _, -, -, hresolved⟩ := exists_of_read h
  obtain ⟨before, after, hsplit⟩ := List.append_of_mem hmem
  obtain ⟨hle, -⟩ := recentGroups_eq (captures_of_read h).1 hsplit
  obtain ⟨e, he⟩ := exists_of_resolveElements hresolved hsplit
  rw [Nat.zero_add] at he
  obtain ⟨-, horphan, -⟩ := Resolver.backreference_ok (Element.backreference_of_resolve he) hle
  obtain ⟨hallowed, n, rfl, hn⟩ := horphan rfl
  exact ⟨hallowed, place, n, hmem, hn⟩

/-! ## Parts of trees -/

namespace Node

theorem elements_subset_elementsAll {ns : List Node} (hn : n ∈ ns) :
    n.elements ⊆ elementsAll ns := by
  induction ns with
  | nil => cases hn
  | cons m ns ih =>
    rw [elementsAll]
    rcases List.mem_cons.1 hn with rfl | hn
    · exact List.subset_append_left _ _
    · exact List.subset_append_of_subset_right _ (ih hn)

theorem elements_subset_of_child (h : n.Child c) : c.elements ⊆ n.elements := by
  cases h with
  | sequence hc | alternation hc => exact elements_subset_elementsAll hc
  | group | repeated => exact List.subset_cons_self _ _
  | absent => exact List.Subset.refl _

theorem elements_subset_of_contains (h : n.Contains c) : c.elements ⊆ n.elements := by
  induction h with
  | refl => exact List.Subset.refl _
  | tail _ hchild ih => exact List.Subset.trans (elements_subset_of_child hchild) ih

/-- The targets of every reference satisfy `K`. -/
def RefersTo (K : List Nat → Prop) (n : Node) : Prop :=
  ∀ place ref targets, .backreference place ref targets ∈ n.elements → K targets

theorem RefersTo.of_subset {K : List Nat → Prop} {n' : Node} (h : n.RefersTo K)
    (hsub : n'.elements ⊆ n.elements) : n'.RefersTo K :=
  fun place ref targets hmem => h place ref targets (hsub hmem)

end Node

end Source

namespace Core

variable {n c m b : Node} {ms : List Node} {ic st st' : Bool}
  {e : Lowering} {call : Trail → Scope → Nat → Lower Node} {K : List Nat → Prop} {t : Trail}
  {s : Scope}

/-! ## References of core trees -/

namespace Node

/-- The targets of every reference satisfy `K`. -/
def RefersTo (K : List Nat → Prop) (m : Node) : Prop :=
  ∀ targets ic, .backreference targets ic ∈ m.walk → K targets

theorem refersTo_walkAll (h : ∀ m ∈ ms, m.RefersTo K) {targets : List Nat}
    (hmem : .backreference targets ic ∈ walkAll ms) : K targets := by
  induction ms with
  | nil => cases hmem
  | cons m ms ih =>
    rw [walkAll, List.mem_append] at hmem
    rcases hmem with hmem | hmem
    · exact h m List.mem_cons_self targets ic hmem
    · exact ih (fun m hm => h m (List.mem_cons_of_mem _ hm)) hmem

theorem refersTo_sequence (h : ∀ m ∈ ms, m.RefersTo K) : (sequence ms).RefersTo K := by
  intro targets ic hmem
  rcases List.mem_cons.1 hmem with hself | hmem
  · cases hself
  · exact refersTo_walkAll h hmem

theorem refersTo_alternation (h : ∀ m ∈ ms, m.RefersTo K) : (alternation ms).RefersTo K := by
  intro targets ic hmem
  rcases List.mem_cons.1 hmem with hself | hmem
  · cases hself
  · exact refersTo_walkAll h hmem

theorem refersTo_empty : (empty : Node).RefersTo K := by
  simp [RefersTo, walk]

theorem refersTo_ofSequence (h : ∀ m ∈ ms, m.RefersTo K) : (ofSequence ms).RefersTo K := by
  have hkept : ∀ m ∈ ms.filter (!·.isEmpty), m.RefersTo K :=
    fun m hm => h m (List.mem_of_mem_filter hm)
  unfold ofSequence
  split
  next => exact refersTo_empty
  next m heq => exact hkept m (by rw [heq]; exact List.mem_cons_self)
  next => exact refersTo_sequence hkept

/-- A tree with one part has the references of the part. -/
theorem RefersTo.of_walk (hb : b.RefersTo K) (hwalk : m.walk = m :: b.walk)
    (hm : ∀ targets ic, m ≠ .backreference targets ic) : m.RefersTo K := by
  intro targets ic hmem
  rw [hwalk] at hmem
  rcases List.mem_cons.1 hmem with hself | hmem
  · exact absurd hself.symm (hm targets ic)
  · exact hb targets ic hmem

theorem RefersTo.groupNode (hb : b.RefersTo K) (inClone : Bool) (kind : Source.GroupKind) :
    (groupNode inClone b kind).RefersTo K := by
  cases kind with
  | flags =>
    show (parenthesized b).RefersTo K
    unfold parenthesized
    split
    · exact hb.of_walk rfl (by simp)
    · exact hb
  | _ => exact hb.of_walk rfl (by simp [Core.groupNode])

end Node

/-! ## Lowering -/

/-- The parts of a sequence, of which `done` have been lowered. -/
theorem refersTo_of_lowerParts {cut : Option Nat} {done : List Node} {ns : List Source.Node}
    (hcut : CutAtKeep cut ns) (h : (lowerParts e call t s cut done ns).run st = .ok (ms, st'))
    (hparts : ∀ n ∈ ns, ∀ m, Place.Lowers e call ⟨t, s, n⟩ m → m.RefersTo K)
    (hdone : ∀ m ∈ done, m.RefersTo K) : ∀ m ∈ ms, m.RefersTo K := by
  induction ns generalizing cut done st with
  | nil =>
    rw [lowerParts] at h
    cases h
    exact fun m hm => hdone m (List.mem_reverse.1 hm)
  | cons n ns ih =>
    have hrest := fun n' hn' => hparts n' (List.mem_cons_of_mem n hn')
    obtain ⟨cut', hcut', ⟨part, st₁, hp, h⟩ | ⟨rfl, done', hleft, h⟩⟩ := lowerParts_cases hcut h
    · have hlowered := hparts n List.mem_cons_self part ⟨_, _, hp⟩
      exact ih hcut' h hrest (List.forall_mem_cons.2 ⟨hlowered, hdone⟩)
    refine ih hcut' h hrest ?_
    cases hleft with
    | all => exact hdone
    | nothing => exact List.forall_mem_nil _
    | behind =>
      -- what comes before the cut is looked for, with its references
      have hbefore := Node.refersTo_ofSequence fun m hm => hdone m (List.mem_reverse.1 hm)
      exact List.forall_mem_singleton.2 (hbefore.of_walk rfl (by simp [Node.behind]))

/-- Every reference of a lowered tree has the targets of one in the tree, or comes from a call. -/
theorem refersTo_of_lowers {t : Trail} {s : Scope} {n : Source.Node} {m : Node}
    (h : Place.Lowers e call ⟨t, s, n⟩ m) (hn : n.RefersTo K)
    (hcall : ∀ t s target st m st', (call t s target).run st = .ok (m, st') → m.RefersTo K) :
    m.RefersTo K := by
  have hchild : ∀ c, n.Child c → ∀ t s m, Place.Lowers e call ⟨t, s, c⟩ m → m.RefersTo K := by
    intro c hc t s m hm
    have hsize := Source.Node.sizeOf_child hc
    exact refersTo_of_lowers hm (hn.of_subset (Source.Node.elements_subset_of_child hc)) hcall
  by_cases hleaf : n.isLeaf = true
  · intro targets ic hmem
    rcases Place.isInert_of_leaf hleaf h with hinert | ⟨place, ref, _, _, rfl, rfl⟩
    · cases List.all_eq_true.1 hinert _ hmem
    · cases List.mem_singleton.1 hmem
      exact hn place ref targets List.mem_cons_self
  cases n with
  | sequence ns =>
    obtain ⟨st, st', h⟩ := h
    rw [lowerNode] at h
    obtain ⟨ms, st₁, hms, h⟩ := exists_of_run_bind h
    cases h
    have hparts := fun n hn m => hchild n (.sequence hn) t s.nested m
    exact Node.refersTo_ofSequence (refersTo_of_lowerParts (cutAtKeep_sequence s ns) hms hparts
      (List.forall_mem_nil _))
  | alternation ns =>
    obtain ⟨ms, hms, rfl⟩ := Place.lowers_alternation h
    refine Node.refersTo_alternation fun m hm => ?_
    obtain ⟨n, hn, hlowers⟩ := (exists_partner hms).2 m hm
    exact hchild n (.alternation hn) _ _ m hlowers
  | group kind body =>
    obtain ⟨b, hb, rfl⟩ := Place.lowers_group h
    exact (hchild body (.group kind body) _ _ b hb).groupNode _ _
  | repeated body q =>
    obtain ⟨b, hb, rfl⟩ := Place.lowers_repeated h
    exact (hchild body (.repeated body q) _ _ b hb).of_walk rfl (by simp)
  | absent => exact absurd h Place.not_lowers_absent
  | subroutine place ref target =>
    obtain ⟨st, st', h⟩ := h
    exact hcall t s target st m st' h
  | _ => exact absurd rfl hleaf
termination_by sizeOf n

/-- A copy has the references of the definition. -/
theorem refersTo_of_lowerCall (hdefs : ∀ k d, e.definition? k = some d → d.body.RefersTo K)
    (depth : Nat) {target : Nat} (h : (lowerCall e depth t s target).run st = .ok (m, st')) :
    m.RefersTo K := by
  induction depth using Nat.strongRecOn generalizing t s target st m st' with
  | ind depth ih =>
    rcases lowerCall_cases h with ⟨-, -, rfl, -⟩ | ⟨-, depth', d, body, rfl, hdef, hbody, rfl⟩
    · simp [Node.RefersTo, Node.walk]
    · have hlowered := refersTo_of_lowers ⟨_, _, hbody⟩ (hdefs target d hdef)
        fun t s target st m st' hcall => ih depth' (Nat.lt_succ_self _) hcall
      exact hlowered.of_walk rfl (by simp)

/-- **A reference to no group comes from the source pattern.** -/
theorem orphan_of_lower {o : LowerOptions} {p : Source.Pattern} {q : Pattern}
    (h : Pattern.lower o p = .ok q) (hmem : .backreference [] ic ∈ q.root.walk) :
    ∃ place ref, .backreference place ref [] ∈ p.root.elements := by
  have hroot : p.root.RefersTo fun targets =>
      ∃ place ref, .backreference place ref targets ∈ p.root.elements :=
    fun place ref _ hmem => ⟨place, ref, hmem⟩
  have hdefs : ∀ k d, (Lowering.of o p).definition? k = some d → d.body.RefersTo fun targets =>
      ∃ place ref, .backreference place ref targets ∈ p.root.elements := by
    intro k d hd
    obtain ⟨y, hy, hnode, -⟩ := exists_reaches_of_definition? hd
    have hcontains : p.root.Contains d.body := by
      refine hy.contains.tail ?_
      rw [hnode]
      exact .group _ _
    exact hroot.of_subset (Source.Node.elements_subset_of_contains hcontains)
  have hlowered := refersTo_of_lowers (lowers_of_lower h)
    (hroot.of_subset (Source.alike_splitStrategy _ _).elements)
    fun _ _ _ _ _ _ hcall => refersTo_of_lowerCall hdefs _ hcall
  exact hlowered [] ic hmem

end Core

end Diglot
