import Diglot.Proofs.Core.Places
import Diglot.Proofs.Core.Root

/-!
# Definitions and places

The definitions that calls lead to are collected ahead of lowering, by a walk of their own. They are
the capture groups that are reached from the root, each with the flags of its place. A leading anchor
is taken off only after that. The part of the tree that loses it holds a `\G`, which cannot be
lowered anywhere else.
-/

namespace Diglot

variable {target k : Nat} {name : Option String} {n' : Source.Node}

namespace Source.Node

variable {n : Node}

section

variable {c body : Node} {ns : List Node}

theorem child_sequence : (sequence ns).Child c ↔ c ∈ ns :=
  ⟨by rintro ⟨⟩; assumption, .sequence⟩

theorem child_alternation : (alternation ns).Child c ↔ c ∈ ns :=
  ⟨by rintro ⟨⟩; assumption, .alternation⟩

theorem child_group {kind : GroupKind} : (group kind body).Child c ↔ c = body :=
  ⟨by rintro ⟨⟩; rfl, by rintro rfl; exact .group kind c⟩

theorem child_repeated {q : Quantifier} : (repeated body q).Child c ↔ c = body :=
  ⟨by rintro ⟨⟩; rfl, by rintro rfl; exact .repeated c q⟩

theorem child_absent : (absent body).Child c ↔ c = body :=
  ⟨by rintro ⟨⟩; rfl, by rintro rfl; exact .absent c⟩

end

/-- The second tree is the first or a part of it. -/
abbrev Contains : Node → Node → Prop := Relation.ReflTransGen Child

/-- There is a call to the group in the tree. -/
def Calls (n : Node) (target : Nat) : Prop :=
  ∃ place ref, n.Contains (.subroutine place ref target)

theorem Calls.of_contains {c : Node} (h : c.Calls target) (hc : n.Contains c) : n.Calls target := by
  obtain ⟨place, ref, h⟩ := h
  exact ⟨place, ref, hc.trans h⟩

/-! ## Leading anchors -/

/-- The second tree is the first one, or the first one without its leading anchor. -/
def Stripped (n n' : Node) : Prop :=
  n' = n ∨ n.leadingStrategy?.isSome = true ∧ n' = n.withoutAnchor

theorem stripped_splitStrategy (singleline : Bool) (n : Node) :
    n.Stripped (n.splitStrategy singleline).2 := by
  unfold splitStrategy
  split
  next => exact .inl rfl
  next h => exact .inr ⟨by rw [h]; rfl, rfl⟩
  next h => exact .inr ⟨by rw [h]; rfl, rfl⟩

theorem contains_isSearchStart (h : n.isSearchStart = true) :
    n.Contains (.assertion .searchStart) := by
  unfold isSearchStart at h
  split at h
  · exact .refl
  · cases h

theorem contains_isLineOrSearchStart (h : n.isLineOrSearchStart = true) :
    n.Contains (.assertion .searchStart) := by
  unfold isLineOrSearchStart at h
  split at h
  · exact .single (.alternation (by simp))
  · exact .single (.alternation (by simp))
  · cases h

mutual

/-- A tree that changes when its leading anchor is taken off has the anchor. -/
theorem contains_searchStart : ∀ (n : Node), n.leadingStrategy?.isSome = true →
    n.withoutAnchor = n ∨ n.Contains (.assertion .searchStart)
  | .assertion .searchStart, _ => .inr .refl
  | .group (.look ⟨false, true⟩) body, h => by
    rw [leadingStrategy?] at h
    split at h
    next hb => exact .inr (.head (.group _ body) (contains_isSearchStart hb))
    next => cases h
  | .group .plain body, h => by
    rw [leadingStrategy?] at h
    split at h
    next hb => exact .inr (.head (.group _ body) (contains_isLineOrSearchStart hb))
    next => cases h
  | .group (.flags change) body, h | .group (.capture k name) body, h => by
    rw [leadingStrategy?] at h
    rcases contains_searchStart body h with hsame | hcontains
    · exact .inl (by rw [withoutAnchor, hsame])
    · exact .inr (.head (.group _ body) hcontains)
  | .alternation ns, h => by
    rw [leadingStrategy?] at h
    split at h
    next hall =>
      rcases contains_searchStarts ns hall with hsame | ⟨n, hn, hcontains⟩
      · exact .inl (by rw [withoutAnchor, hsame])
      · exact .inr (.head (.alternation hn) hcontains)
    next => cases h
  | .sequence (n :: ns), h => by
    rw [leadingStrategy?] at h
    rcases contains_searchStart n h with hsame | hcontains
    · exact .inl (by rw [withoutAnchor, hsame])
    · exact .inr (.head (.sequence List.mem_cons_self) hcontains)

theorem contains_searchStarts : ∀ (ns : List Node), allSearchStart ns = true →
    withoutAnchors ns = ns ∨ ∃ n ∈ ns, n.Contains (.assertion .searchStart)
  | [], _ => .inl rfl
  | n :: ns, h => by
    rw [allSearchStart, Bool.and_eq_true, beq_iff_eq] at h
    rcases contains_searchStart n (by rw [h.1]; rfl) with hsame | hcontains
    · rcases contains_searchStarts ns h.2 with hsames | ⟨c, hc, hcontains⟩
      · exact .inl (by rw [withoutAnchors, hsame, hsames])
      · exact .inr ⟨c, List.mem_cons_of_mem _ hc, hcontains⟩
    · exact .inr ⟨n, List.mem_cons_self, hcontains⟩

end

theorem Stripped.eq_or_contains {n' : Node} (h : n.Stripped n') :
    n' = n ∨ n.Contains (.assertion .searchStart) := by
  rcases h with rfl | ⟨hs, rfl⟩
  · exact .inl rfl
  · exact contains_searchStart n hs

theorem exists_of_mem_withoutAnchors {ns : List Node} (hall : allSearchStart ns = true) {c' : Node}
    (hc : c' ∈ withoutAnchors ns) : ∃ c ∈ ns, c.Stripped c' := by
  induction ns with
  | nil => cases hc
  | cons n ns ih =>
    rw [allSearchStart, Bool.and_eq_true, beq_iff_eq] at hall
    rw [withoutAnchors] at hc
    rcases List.mem_cons.1 hc with rfl | hc
    · exact ⟨n, List.mem_cons_self, .inr ⟨by rw [hall.1]; rfl, rfl⟩⟩
    · obtain ⟨c, hc, hstripped⟩ := ih hall.2 hc
      exact ⟨c, List.mem_cons_of_mem _ hc, hstripped⟩

/-- A capture group that has been stripped was a capture group before. -/
theorem Stripped.eq_capture {b' : Node} (h : n.Stripped (.group (.capture k name) b')) :
    ∃ b, n = .group (.capture k name) b ∧ b.Stripped b' := by
  rcases h with rfl | ⟨hs, heq⟩
  · exact ⟨b', rfl, .inl rfl⟩
  cases n with
  | group kind body =>
    cases kind with
    | capture number name =>
      rw [leadingStrategy?] at hs
      cases heq
      exact ⟨body, rfl, .inr ⟨hs, rfl⟩⟩
    | _ => cases heq
  | sequence ns => cases ns <;> cases heq
  | _ => cases heq

theorem Stripped.eq_subroutine {place : Nat} {ref : Reference}
    (h : n.Stripped (.subroutine place ref target)) : n = .subroutine place ref target := by
  rcases h with heq | ⟨hs, heq⟩
  · exact heq.symm
  cases n with
  | group kind body => cases kind <;> cases heq
  | sequence ns => cases ns <;> cases heq
  | _ => cases heq

end Source.Node

namespace Core

variable {o : LowerOptions} {p : Source.Pattern} {n : Node} {x : Place} {t : Trail} {s : Scope}
  {d : Definition}

/-- The scope of a copy: only the flags matter. -/
def Scope.inCopy (s : Scope) : Scope :=
  { s with topLevel := false, inClone := true }

namespace Place

variable {y : Place}

/-! ## What holds at all places that are reached -/

theorem inCopy_innerScope {x' : Place} (hnode : x'.node = x.node)
    (hscope : x'.scope.inCopy = x.scope.inCopy) : x'.innerScope.inCopy = x.innerScope.inCopy := by
  obtain ⟨t, s, n⟩ := x
  obtain ⟨t', s', n'⟩ := x'
  cases hnode
  have hflags : s'.ignoreCase = s.ignoreCase ∧ s'.dotAll = s.dotAll := by
    simpa [Scope.inCopy] using hscope
  unfold innerScope
  dsimp only
  split <;> simp [Scope.inCopy, Scope.apply, Scope.nested, hflags]

theorem inClone_innerScope (x : Place) : x.innerScope.inClone = x.scope.inClone := by
  unfold innerScope
  split <;> rfl

theorem mem_innerTrail : k ∈ x.innerTrail.ancestors ↔
    k ∈ x.trail.ancestors ∨ ∃ name body, x.node = .group (.capture k name) body := by
  obtain ⟨t, s, n⟩ := x
  unfold innerTrail
  dsimp only
  split
  next number name body =>
    rw [List.mem_cons, or_comm]
    refine or_congr .rfl ⟨?_, ?_⟩
    · rintro rfl
      exact ⟨name, body, rfl⟩
    · rintro ⟨_, _, h⟩
      cases h
      rfl
  next hn =>
    refine ⟨.inl, fun h => h.resolve_right ?_⟩
    rintro ⟨name, body, rfl⟩
    exact hn k name body rfl

theorem Reaches.inClone (h : x.Reaches y) : y.scope.inClone = x.scope.inClone := by
  induction h with
  | refl => rfl
  | tail _ hbelow ih => rw [hbelow.2.1, inClone_innerScope, ih]

theorem Reaches.ancestors (h : x.Reaches y) (hk : k ∈ x.trail.ancestors) :
    k ∈ y.trail.ancestors := by
  induction h with
  | refl => exact hk
  | tail _ hbelow ih =>
    rw [hbelow.1]
    exact mem_innerTrail.2 (.inl ih)

/-- The groups around a place are those around the first one, and the capture groups in between. -/
theorem Reaches.exists_group (h : x.Reaches y) (hk : k ∈ y.trail.ancestors) :
    k ∈ x.trail.ancestors ∨
      ∃ z name body, x.Reaches z ∧ z.node = .group (.capture k name) body ∧ body.Contains y.node := by
  induction h with
  | refl => exact .inl hk
  | @tail y z hreaches hbelow ih =>
    rw [hbelow.1, mem_innerTrail] at hk
    rcases hk with hk | ⟨name, body, hy⟩
    · refine (ih hk).imp_right ?_
      rintro ⟨w, name, body, hw, hnode, hcontains⟩
      exact ⟨w, name, body, hw, hnode, hcontains.tail hbelow.2.2⟩
    · refine .inr ⟨y, name, body, hreaches, hy, ?_⟩
      have hchild := hbelow.2.2
      rw [hy] at hchild
      cases hchild
      exact .refl

theorem Reaches.contains (h : x.Reaches y) : x.node.Contains y.node := by
  induction h with
  | refl => exact .refl
  | tail _ hbelow ih => exact ih.tail hbelow.2.2

/-- A part of a tree is reached wherever the tree is. -/
theorem exists_reaches_of_contains (x : Place) {n : Source.Node} (h : x.node.Contains n) :
    ∃ y, x.Reaches y ∧ y.node = n := by
  induction h with
  | refl => exact ⟨x, .refl, rfl⟩
  | tail _ hchild ih =>
    obtain ⟨y, hy, rfl⟩ := ih
    exact ⟨⟨y.innerTrail, y.innerScope, _⟩, hy.tail ⟨rfl, rfl, hchild⟩, rfl⟩

/-- The same tree under the same flags has the same parts under the same flags. -/
theorem Reaches.transport (h : x.Reaches y) {w : Place} (hnode : w.node = x.node)
    (hscope : w.scope.inCopy = x.scope.inCopy) :
    ∃ y', w.Reaches y' ∧ y'.node = y.node ∧ y'.scope.inCopy = y.scope.inCopy := by
  induction h with
  | refl => exact ⟨w, .refl, hnode, hscope⟩
  | @tail y z _ hbelow ih =>
    obtain ⟨y', hy', hnode', hscope'⟩ := ih
    refine ⟨⟨y'.innerTrail, y'.innerScope, z.node⟩, hy'.tail ⟨rfl, rfl, ?_⟩, rfl, ?_⟩
    · rw [hnode']
      exact hbelow.2.2
    · rw [hbelow.2.1]
      exact inCopy_innerScope hnode' hscope'

/-- What is directly below a stripped tree is stripped or whole. -/
theorem Below.stripped {n : Source.Node} (hn : n.Stripped n') (h : Below ⟨t, s, n'⟩ y) :
    ∃ c, Below ⟨t, s, n⟩ ⟨y.trail, y.scope, c⟩ ∧ c.Stripped y.node := by
  obtain ⟨t', s', c'⟩ := y
  rcases hn with rfl | ⟨hs, rfl⟩
  · exact ⟨c', h, .inl rfl⟩
  obtain ⟨rfl, rfl, hc⟩ := h
  cases n with
  | alternation ns =>
    rw [Source.Node.leadingStrategy?] at hs
    rw [Source.Node.withoutAnchor] at hc ⊢
    split at hs
    next hall =>
      cases hc with
      | alternation hc =>
        obtain ⟨c, hc, hstripped⟩ := Source.Node.exists_of_mem_withoutAnchors hall hc
        exact ⟨c, ⟨rfl, rfl, .alternation hc⟩, hstripped⟩
    next => cases hs
  | sequence ns =>
    cases ns with
    | nil => cases hs
    | cons n ns =>
      rw [Source.Node.leadingStrategy?] at hs
      rw [Source.Node.withoutAnchor] at hc ⊢
      cases hc with
      | sequence hc =>
        rcases List.mem_cons.1 hc with rfl | hc
        · exact ⟨n, ⟨rfl, rfl, .sequence List.mem_cons_self⟩, .inr ⟨hs, rfl⟩⟩
        · exact ⟨c', ⟨rfl, rfl, .sequence (List.mem_cons_of_mem _ hc)⟩, .inl rfl⟩
  | group kind body =>
    cases kind with
    | flags | capture =>
      rw [Source.Node.leadingStrategy?] at hs
      rw [Source.Node.withoutAnchor] at hc ⊢
      cases hc
      exact ⟨body, ⟨rfl, rfl, .group _ body⟩, .inr ⟨hs, rfl⟩⟩
    | _ => cases hc
  | _ => cases hc

/-- Taking a leading anchor off changes no place: what is reached then was reached before, stripped
or whole. -/
theorem Reaches.stripped {n : Source.Node} (hn : n.Stripped n') (h : Reaches ⟨t, s, n'⟩ y) :
    ∃ c, Reaches ⟨t, s, n⟩ ⟨y.trail, y.scope, c⟩ ∧ c.Stripped y.node := by
  induction h with
  | refl => exact ⟨n, .refl, hn⟩
  | tail _ hbelow ih =>
    obtain ⟨c, hc, hstripped⟩ := ih
    obtain ⟨c', hbelow', hstripped'⟩ := hbelow.stripped hstripped
    exact ⟨c', hc.tail hbelow', hstripped'⟩

/-- A call in a stripped tree was there before. -/
theorem calls_of_stripped {n : Source.Node} (hn : n.Stripped n') (h : n'.Calls k) : n.Calls k := by
  obtain ⟨place, ref, h⟩ := h
  obtain ⟨y, hy, hnode⟩ := exists_reaches_of_contains ⟨{}, ⟨false, false, false, false⟩, n'⟩ h
  obtain ⟨c, hc, hstripped⟩ := hy.stripped hn
  rw [hnode] at hstripped
  obtain rfl := hstripped.eq_subroutine
  exact ⟨place, ref, hc.contains⟩

end Place

/-! ## Definitions -/

mutual

theorem definitions_append (n : Source.Node) (s : Scope) (found : List Definition) :
    definitions s found n = definitions s [] n ++ found := by
  cases n with
  | group kind body =>
    cases kind with
    | capture number name =>
      rw [definitions, definitions, definitions_append body, definitions_append body s [_]]
      simp
    | _ => exact definitions_append body _ found
  | repeated body | absent body => exact definitions_append body s found
  | sequence ns | alternation ns => exact definitionsAll_append ns s found
  | _ => rfl

theorem definitionsAll_append : ∀ (ns : List Source.Node) (s : Scope) (found : List Definition),
    definitionsAll s found ns = definitionsAll s [] ns ++ found
  | [], _, _ => rfl
  | n :: ns, s, found => by
    rw [definitionsAll, definitionsAll, definitionsAll_append ns, definitions_append n,
      definitionsAll_append ns s (definitions s [] n), List.append_assoc]

end

theorem mem_definitionsAll {ns : List Source.Node} :
    d ∈ definitionsAll s [] ns ↔ ∃ n ∈ ns, d ∈ definitions s [] n := by
  induction ns with
  | nil => simp [definitionsAll]
  | cons n ns ih => simp [definitionsAll, definitionsAll_append ns s (definitions s [] n), ih, or_comm]

/-- A definition as a copy sees it. -/
def Definition.inCopy (d : Definition) : Definition :=
  { d with scope := d.scope.inCopy }

mutual

/-- The definitions of a tree depend on its scope through the flags only. -/
theorem definitions_inCopy (n : Source.Node) (s : Scope) (found : List Definition) :
    definitions s.inCopy (found.map Definition.inCopy) n
      = (definitions s found n).map Definition.inCopy := by
  cases n with
  | group kind body =>
    cases kind with
    | capture number name => exact definitions_inCopy body s (⟨number, name, body, s⟩ :: found)
    | flags change => exact definitions_inCopy body (s.apply change) found
    | _ => exact definitions_inCopy body s found
  | repeated body | absent body => exact definitions_inCopy body s found
  | sequence ns | alternation ns => exact definitionsAll_inCopy ns s found
  | _ => rfl

theorem definitionsAll_inCopy : ∀ (ns : List Source.Node) (s : Scope) (found : List Definition),
    definitionsAll s.inCopy (found.map Definition.inCopy) ns
      = (definitionsAll s found ns).map Definition.inCopy
  | [], _, _ => rfl
  | n :: ns, s, found => by
    rw [definitionsAll, definitionsAll, definitions_inCopy n, definitionsAll_inCopy ns]

end

namespace Place

/-- The definitions of a tree are its own, if it is a capture group, and those of what is directly
below. -/
theorem mem_definitions_child :
    d ∈ definitions x.scope.inCopy [] x.node ↔
      (x.node = .group (.capture d.number d.name) d.body ∧ d.scope = x.scope.inCopy) ∨
        ∃ c, x.node.Child c ∧ d ∈ definitions x.innerScope.inCopy [] c := by
  obtain ⟨t, s, n⟩ := x
  cases n with
  | group kind body =>
    simp only [Source.Node.child_group, exists_eq_left]
    cases kind with
    | capture number name =>
      obtain ⟨number', name', body', s'⟩ := d
      rw [definitions, definitions_append, List.mem_append, List.mem_singleton, or_comm]
      refine or_congr ?_ .rfl
      simp only [Definition.mk.injEq, Source.Node.group.injEq, Source.GroupKind.capture.injEq,
        eq_comm, and_assoc]
    | _ => exact (or_iff_right (by simp)).symm
  | sequence ns | alternation ns =>
    simp only [Source.Node.child_sequence, Source.Node.child_alternation]
    exact mem_definitionsAll.trans (or_iff_right (by simp)).symm
  | repeated body | absent body =>
    simp only [Source.Node.child_repeated, Source.Node.child_absent, exists_eq_left]
    exact (or_iff_right (by simp)).symm
  | _ =>
    constructor
    · intro h
      cases h
    · rintro (⟨h, -⟩ | ⟨c, hc, -⟩)
      · cases h
      · cases hc

theorem exists_reaches_of_mem_definitions {x : Place}
    (h : d ∈ definitions x.scope.inCopy [] x.node) : ∃ y, x.Reaches y ∧
      y.node = .group (.capture d.number d.name) d.body ∧ d.scope = y.scope.inCopy := by
  rcases mem_definitions_child.1 h with hself | ⟨c, hc, hd⟩
  · exact ⟨x, .refl, hself⟩
  · have hsize := Source.Node.sizeOf_child hc
    obtain ⟨y, hy, hnode⟩ :=
      exists_reaches_of_mem_definitions (x := ⟨x.innerTrail, x.innerScope, c⟩) hd
    exact ⟨y, .head ⟨rfl, rfl, hc⟩ hy, hnode⟩
termination_by sizeOf x.node

/-- **The definitions of a tree are the capture groups that are reached from it.** -/
theorem mem_definitions :
    d ∈ definitions x.scope.inCopy [] x.node ↔ ∃ y, x.Reaches y ∧
      y.node = .group (.capture d.number d.name) d.body ∧ d.scope = y.scope.inCopy := by
  refine ⟨exists_reaches_of_mem_definitions, ?_⟩
  rintro ⟨y, hy, hnode⟩
  induction hy using Relation.ReflTransGen.head_induction_on with
  | refl => exact mem_definitions_child.2 (.inl hnode)
  | head hbelow _ ih =>
    refine mem_definitions_child.2 (.inr ⟨_, hbelow.2.2, ?_⟩)
    rw [← hbelow.2.1]
    exact ih

end Place

/-! ## Finding a definition -/

mutual

theorem numbers_definitions (n : Source.Node) (s : Scope) :
    (definitions s [] n).map (·.number) = (n.captures.map (·.1)).reverse := by
  cases n with
  | group kind body =>
    cases kind with
    | capture number name =>
      rw [definitions, definitions_append, Source.Node.captures, List.map_append,
        numbers_definitions body s]
      simp
    | _ => exact numbers_definitions body _
  | repeated body | absent body => exact numbers_definitions body s
  | sequence ns | alternation ns => exact numbers_definitionsAll ns s
  | _ => rfl

theorem numbers_definitionsAll : ∀ (ns : List Source.Node) (s : Scope),
    (definitionsAll s [] ns).map (·.number) = ((Source.capturesAll ns).map (·.1)).reverse
  | [], _ => rfl
  | n :: ns, s => by
    rw [definitionsAll, definitionsAll_append, Source.capturesAll, List.map_append,
      numbers_definitionsAll ns s, numbers_definitions n s, List.map_append, List.reverse_append]

end

/-- Of definitions with different numbers, every one is found by its number. -/
theorem Lowering.definition?_of_mem {e : Lowering} (hnodup : (e.definitions.map (·.number)).Nodup)
    (hd : d ∈ e.definitions) : e.definition? d.number = some d := by
  unfold definition?
  generalize e.definitions = ds at hnodup hd
  induction ds with
  | nil => cases hd
  | cons d' ds ih =>
    rw [List.map_cons, List.nodup_cons] at hnodup
    rcases List.mem_cons.1 hd with rfl | hd
    · simp
    · have hne : d'.number ≠ d.number := fun h => hnodup.1 (h ▸ List.mem_map_of_mem hd)
      rw [List.find?_cons_of_neg (by simpa using hne)]
      exact ih hnodup.2 hd

/-- The place of the root of a pattern. -/
def Place.root (p : Source.Pattern) : Place := ⟨{}, .root p, p.root⟩

theorem definitions_inCopy_root : definitions (Scope.root p).inCopy [] p.root
    = (Lowering.of o p).definitions.map Definition.inCopy :=
  definitions_inCopy p.root (.root p) []

theorem nodup_definitions (hnodup : (p.root.captures.map (·.1)).Nodup) :
    ((Lowering.of o p).definitions.map (·.number)).Nodup := by
  have hnumbers : (Lowering.of o p).definitions.map (·.number)
      = (p.root.captures.map (·.1)).reverse :=
    numbers_definitions p.root (.root p)
  rw [hnumbers]
  exact List.nodup_reverse.2 hnodup

/-- Every capture group that is reached from the root is found by its number, with its flags. -/
theorem exists_definition (hnodup : (p.root.captures.map (·.1)).Nodup) {y : Place}
    (hy : (Place.root p).Reaches y) {body : Source.Node}
    (hnode : y.node = .group (.capture k name) body) :
    ∃ s, (Lowering.of o p).definition? k = some ⟨k, name, body, s⟩ ∧
      s.inCopy = y.scope.inCopy := by
  have hmem : Definition.mk k name body y.scope.inCopy
      ∈ (Lowering.of o p).definitions.map Definition.inCopy := by
    rw [← definitions_inCopy_root]
    exact Place.mem_definitions (x := .root p) |>.2 ⟨y, hy, hnode, rfl⟩
  obtain ⟨⟨number, name', body', s⟩, hd, heq⟩ := List.mem_map.1 hmem
  obtain ⟨rfl, rfl, rfl, hscope⟩ := Definition.mk.inj heq
  exact ⟨s, Lowering.definition?_of_mem (nodup_definitions hnodup) hd, hscope⟩

/-- What is found by a number is a capture group that is reached from the root. -/
theorem exists_reaches_of_definition? (h : (Lowering.of o p).definition? k = some d) :
    ∃ y, (Place.root p).Reaches y ∧
      y.node = .group (.capture k d.name) d.body ∧ d.scope.inCopy = y.scope.inCopy := by
  have hk : d.number = k := by simpa using List.find?_some h
  have hmem : d.inCopy ∈ definitions (Place.root p).scope.inCopy [] (Place.root p).node := by
    have hroot := definitions_inCopy_root (o := o) (p := p)
    exact hroot ▸ List.mem_map_of_mem (List.mem_of_find?_eq_some h)
  obtain ⟨y, hy, hnode, hscope⟩ := Place.mem_definitions.1 hmem
  exact ⟨y, hy, hk ▸ hnode, hscope⟩

end Core

/-- Groups are registered under different numbers. -/
theorem Source.nodup_numbers_of_read {o : ReadOptions} {text : List Char} {p : Pattern}
    (h : Pattern.read o text = .ok p) : (p.root.captures.map (·.1)).Nodup := by
  have hnumbers : p.groups.toList.map (·.1) = (List.range' 0 p.groups.names.length).map (· + 1) := by
    rw [Groups.toList, List.map_map, ← List.zipIdx_map_snd 0 p.groups.names, List.map_map]
    rfl
  rw [(captures_of_read h).1, hnumbers]
  exact (List.nodup_range' ..).map fun a b h => Nat.succ.inj h

end Diglot
