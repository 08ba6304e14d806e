import Diglot.Proofs.Core.Lowered
import Mathlib.Data.List.Forall2
import Mathlib.Logic.Relation

/-!
# Places of a source tree

When a tree is lowered, every part of it is lowered at its own place: among the groups around it and
in the scope that holds there. The captures of the lowered tree come from the capture groups and the
subroutine calls at these places, and none is lost.

A single step down is `Place.Below`; `Place.lowers_below` and `Place.exists_below` say what it means
for the lowered trees, and by induction along the steps this holds of all places that are reached.
-/

namespace Diglot

/-- Each element of two related lists has a partner in the other. -/
theorem exists_partner {α β : Type} {R : α → β → Prop} {as : List α} {bs : List β}
    (h : List.Forall₂ R as bs) : (∀ a ∈ as, ∃ b ∈ bs, R a b) ∧ ∀ b ∈ bs, ∃ a ∈ as, R a b := by
  induction h with
  | nil => simp
  | cons hab _ ih =>
    refine ⟨List.forall_mem_cons.2 ⟨⟨_, List.mem_cons_self, hab⟩, fun a ha => ?_⟩,
      List.forall_mem_cons.2 ⟨⟨_, List.mem_cons_self, hab⟩, fun b hb => ?_⟩⟩
    · obtain ⟨b, hb, hr⟩ := ih.1 a ha
      exact ⟨b, List.mem_cons_of_mem _ hb, hr⟩
    · obtain ⟨a, ha, hr⟩ := ih.2 b hb
      exact ⟨a, List.mem_cons_of_mem _ ha, hr⟩

namespace Source.Node

/-- The second tree is directly below the first. -/
inductive Child : Node → Node → Prop where
  | sequence {ns : List Node} {n : Node} (h : n ∈ ns) : Child (.sequence ns) n
  | alternation {ns : List Node} {n : Node} (h : n ∈ ns) : Child (.alternation ns) n
  | group (kind : GroupKind) (n : Node) : Child (.group kind n) n
  | repeated (n : Node) (q : Quantifier) : Child (.repeated n q) n
  | absent (n : Node) : Child (.absent n) n

/-- Whether the node has no parts and is no call. -/
def isLeaf : Node → Bool
  | sequence _ | alternation _ | group _ _ | repeated _ _ | subroutine _ _ _ | absent _ => false
  | _ => true

theorem sizeOf_child {n c : Node} (h : n.Child c) : sizeOf c < sizeOf n := by
  cases h with
  | sequence h | alternation h =>
    have := List.sizeOf_lt_of_mem h
    simp only [sequence.sizeOf_spec, alternation.sizeOf_spec]
    omega
  | group | repeated | absent =>
    simp only [group.sizeOf_spec, repeated.sizeOf_spec, absent.sizeOf_spec]
    omega

end Source.Node

namespace Core

variable {e : Lowering} {call : Trail → Scope → Nat → Lower Node} {t : Trail} {s : Scope}
  {c m : Node} {ms done : List Node} {ns : List Source.Node} {st st' : Bool} {body : Source.Node}

/-! ## Captures of core trees -/

namespace Node

/-- Whether the node is a capture. -/
def isCapture : Node → Bool
  | capture .. => true
  | _ => false

/-- The captures of a tree with their bodies, in the order of the walk. -/
def captureNodes (m : Node) : List Node :=
  m.walk.filter isCapture

/-- The captures of several trees. -/
def captureNodesAll (ms : List Node) : List Node :=
  (walkAll ms).filter isCapture

@[simp] theorem captureNodesAll_nil : captureNodesAll [] = [] := rfl

@[simp] theorem captureNodesAll_cons (m : Node) (ms : List Node) :
    captureNodesAll (m :: ms) = m.captureNodes ++ captureNodesAll ms :=
  List.filter_append ..

@[simp] theorem captureNodes_sequence (ms : List Node) :
    (sequence ms).captureNodes = captureNodesAll ms := rfl

@[simp] theorem captureNodes_alternation (ms : List Node) :
    (alternation ms).captureNodes = captureNodesAll ms := rfl

@[simp] theorem captureNodes_capture (number : Nat) (name : Option String) (hidden : Bool)
    (origin : Option Nat) (body : Node) : (capture number name hidden origin body).captureNodes
      = capture number name hidden origin body :: body.captureNodes := rfl

@[simp] theorem captureNodes_behind (negated : Bool) (body : Node) :
    (behind negated body).captureNodes = body.captureNodes := rfl

@[simp] theorem captureNodes_recursion (target : Nat) : (recursion target).captureNodes = [] := rfl

theorem mem_captureNodesAll : c ∈ captureNodesAll ms ↔ ∃ m ∈ ms, c ∈ m.captureNodes := by
  induction ms with
  | nil => simp
  | cons m ms ih => simp [ih]

theorem captureNodes_of_isEmpty (h : m.isEmpty = true) : m.captureNodes = [] := by
  cases m <;> first | rfl | cases h

@[simp] theorem captureNodesAll_filter (ms : List Node) :
    captureNodesAll (ms.filter (!·.isEmpty)) = captureNodesAll ms := by
  induction ms with
  | nil => rfl
  | cons m ms ih =>
    by_cases h : m.isEmpty = true
    · rw [List.filter_cons_of_neg (by simp [h]), ih, captureNodesAll_cons, captureNodes_of_isEmpty h]
      rfl
    · rw [List.filter_cons_of_pos (by simp [h]), captureNodesAll_cons, captureNodesAll_cons, ih]

@[simp] theorem captureNodes_ofSequence (ms : List Node) :
    (ofSequence ms).captureNodes = captureNodesAll ms := by
  rw [← captureNodesAll_filter ms]
  unfold ofSequence
  split
  next h => rw [h]; rfl
  next m h => rw [h]; simp
  next => rfl

@[simp] theorem captureNodes_parenthesized (m : Node) :
    (parenthesized m).captureNodes = m.captureNodes := by
  unfold parenthesized
  split <;> rfl

end Node

/-- What a group becomes, in or out of a copy, if its body becomes `body`. -/
def groupNode (inClone : Bool) (body : Node) : Source.GroupKind → Node
  | .capture number name =>
    .capture number name inClone (if inClone then some number else none) body
  | .plain => .group body
  | .atomic => .atomic body
  | .look l => .look l body
  | .flags _ => parenthesized body

/-- A capture group becomes a capture, and no other group does. -/
theorem captureNodes_groupNode (inClone : Bool) (body : Node) (kind : Source.GroupKind) :
    (∃ number name, kind = .capture number name ∧
        (groupNode inClone body kind).captureNodes = groupNode inClone body kind :: body.captureNodes) ∨
      (groupNode inClone body kind).captureNodes = body.captureNodes := by
  cases kind with
  | capture number name => exact .inl ⟨number, name, rfl, rfl⟩
  | flags => exact .inr (Node.captureNodes_parenthesized body)
  | _ => exact .inr rfl

/-! ## Places -/

/-- A part of a source tree, with what holds where it stands. -/
structure Place where
  trail : Trail
  scope : Scope
  node : Source.Node

namespace Place

/-- The groups around what is below a place. -/
def innerTrail (x : Place) : Trail :=
  match x.node with
  | .group (.capture number _) _ => { x.trail with ancestors := number :: x.trail.ancestors }
  | _ => x.trail

/-- The scope of what is below a place. -/
def innerScope (x : Place) : Scope :=
  match x.node with
  | .group (.flags change) _ => x.scope.apply change
  | _ => x.scope.nested

/-- `y` is directly below `x`. -/
def Below (x y : Place) : Prop :=
  y.trail = x.innerTrail ∧ y.scope = x.innerScope ∧ x.node.Child y.node

/-- `y` is `x` or somewhere below it. -/
abbrev Reaches : Place → Place → Prop := Relation.ReflTransGen Below

/-- What is at the place can be lowered to `m`. -/
def Lowers (e : Lowering) (call : Trail → Scope → Nat → Lower Node) (x : Place) (m : Node) : Prop :=
  ∃ st st', (lowerNode e call x.trail x.scope x.node).run st = .ok (m, st')

end Place

theorem forall₂_of_lowerAll (h : (lowerAll e call t s ns).run st = .ok (ms, st')) :
    List.Forall₂ (fun n m => Place.Lowers e call ⟨t, s, n⟩ m) ns ms := by
  induction ns generalizing st ms with
  | nil =>
    rw [lowerAll] at h
    cases h
    exact .nil
  | cons n ns ih =>
    rw [lowerAll] at h
    obtain ⟨first, st₁, hf, h⟩ := exists_of_run_bind h
    obtain ⟨others, st₂, ho, h⟩ := exists_of_run_bind h
    cases h
    exact .cons ⟨_, _, hf⟩ (ih ho)

/-- Without a `\K` to cut at, all parts of a sequence are lowered. -/
theorem forall₂_of_lowerParts (h : (lowerParts e call t s none done ns).run st = .ok (ms, st')) :
    ∃ ps, ms = done.reverse ++ ps ∧
      List.Forall₂ (fun n m => Place.Lowers e call ⟨t, s, n⟩ m) ns ps := by
  induction ns generalizing done st with
  | nil =>
    rw [lowerParts] at h
    cases h
    exact ⟨[], (List.append_nil _).symm, .nil⟩
  | cons n ns ih =>
    rw [lowerParts] at h
    obtain ⟨part, st₁, hp, h⟩ := exists_of_run_bind h
    obtain ⟨ps, rfl, hps⟩ := ih h
    exact ⟨part :: ps, by simp, .cons ⟨_, _, hp⟩ hps⟩

/-- The captures of the parts `ms` of a sequence are those of the parts `done` before and those of
`ns`, from which a `\K` may have been dropped. -/
structure Gathered (e : Lowering) (call : Trail → Scope → Nat → Lower Node) (t : Trail) (s : Scope)
    (done : List Node) (ns : List Source.Node) (ms : List Node) : Prop where
  before : ∀ c ∈ Node.captureNodesAll done, c ∈ Node.captureNodesAll ms
  kept : ∀ n ∈ ns, n ≠ .keep → ∃ m, Place.Lowers e call ⟨t, s, n⟩ m ∧
    ∀ c ∈ m.captureNodes, c ∈ Node.captureNodesAll ms
  found : ∀ c ∈ Node.captureNodesAll ms, c ∈ Node.captureNodesAll done ∨
    ∃ n ∈ ns, ∃ m, Place.Lowers e call ⟨t, s, n⟩ m ∧ c ∈ m.captureNodes

namespace Gathered

variable {n : Source.Node}

/-- A part has been lowered and has joined those before. -/
theorem of_part (hm : Place.Lowers e call ⟨t, s, n⟩ m) (h : Gathered e call t s (m :: done) ns ms) :
    Gathered e call t s done (n :: ns) ms where
  before c hc := h.before c (by simp [hc])
  kept := by
    refine List.forall_mem_cons.2 ⟨fun _ => ⟨m, hm, fun c hc => h.before c (by simp [hc])⟩, h.kept⟩
  found c hc := by
    rcases h.found c hc with hdone | ⟨n', hn', hfound⟩
    · rw [Node.captureNodesAll_cons, List.mem_append] at hdone
      rcases hdone with hc | hc
      · exact .inr ⟨n, List.mem_cons_self, m, hm, hc⟩
      · exact .inl hc
    · exact .inr ⟨n', List.mem_cons_of_mem _ hn', hfound⟩

/-- A `\K` has been dropped, and the captures before it have not. -/
theorem of_keep {done' : List Node} (h : Gathered e call t s done' ns ms)
    (hdone : ∀ c, c ∈ Node.captureNodesAll done' ↔ c ∈ Node.captureNodesAll done) :
    Gathered e call t s done (.keep :: ns) ms where
  before c hc := h.before c ((hdone c).2 hc)
  kept := List.forall_mem_cons.2 ⟨fun hn => absurd rfl hn, h.kept⟩
  found c hc := by
    rcases h.found c hc with hc | ⟨n', hn', hfound⟩
    · exact .inl ((hdone c).1 hc)
    · exact .inr ⟨n', List.mem_cons_of_mem _ hn', hfound⟩

end Gathered

theorem gathered_of_lowerParts {cut : Option Nat} (hcut : CutAtKeep cut ns)
    (h : (lowerParts e call t s cut done ns).run st = .ok (ms, st')) :
    Gathered e call t s done ns ms := by
  induction ns generalizing cut done st with
  | nil =>
    rw [lowerParts] at h
    cases h
    refine ⟨?_, List.forall_mem_nil _, ?_⟩
    · simp [Node.mem_captureNodesAll]
    · simp [Node.mem_captureNodesAll]
  | cons n ns ih =>
    obtain ⟨cut', hcut', ⟨part, st₁, hp, h⟩ | ⟨rfl, done', hdone, h⟩⟩ := lowerParts_cases hcut h
    · exact .of_part ⟨_, _, hp⟩ (ih hcut' h)
    refine (ih hcut' h).of_keep fun c => ?_
    cases hdone with
    | all => rfl
    | nothing hempty =>
      have hdone := Node.captureNodes_of_isEmpty hempty
      rw [Node.captureNodes_ofSequence] at hdone
      simp only [Node.mem_captureNodesAll, List.eq_nil_iff_forall_not_mem] at hdone ⊢
      simpa using hdone c
    | behind => simp [Node.mem_captureNodesAll]

/-! ## One step down -/

/-- Whether the node is no capture, no reference and no recursion. -/
def Node.isInert : Node → Bool
  | capture .. | backreference .. | recursion _ => false
  | _ => true

theorem isInert_of_lowerAssertion {a : Source.Assertion} (h : lowerAssertion e a = .ok m) :
    m.walk.all Node.isInert = true := by
  have hboundary : ∀ negated, (lowerAssertion.boundary e negated).walk.all Node.isInert = true := by
    intro negated
    unfold lowerAssertion.boundary
    split <;> rfl
  cases a <;> cases h
  case lineStart | lineEnd => split <;> rfl
  case wordBoundary | nonWordBoundary => exact hboundary _
  all_goals rfl

namespace Place

variable {x y : Place}

/-- Only a reference becomes a reference, and nothing else among leaves becomes what matters. -/
theorem isInert_of_leaf (hx : x.node.isLeaf = true) (h : x.Lowers e call m) :
    m.walk.all Node.isInert = true ∨ ∃ place ref targets ic,
      x.node = .backreference place ref targets ∧ m = .backreference targets ic := by
  obtain ⟨t, s, n⟩ := x
  obtain ⟨st, st', h⟩ := h
  cases n with
  | empty | literal | dot | lineBreak =>
    rw [lowerNode] at h
    cases h
    exact .inl rfl
  | set x | charClass x =>
    rw [lowerNode] at h
    obtain ⟨_, _, _, hm⟩ := exists_of_run_bind h
    cases hm
    exact .inl rfl
  | assertion a =>
    rw [lowerNode] at h
    exact .inl (isInert_of_lowerAssertion (eq_of_run_lift h).1)
  | backreference place ref targets =>
    rw [lowerNode] at h
    cases run_of_guard h
    exact .inr ⟨place, ref, targets, _, rfl, rfl⟩
  | keep =>
    rw [lowerNode] at h
    split at h <;> cases h
    exact .inl rfl
  | grapheme =>
    rw [lowerNode] at h
    obtain ⟨_, _, _, hm⟩ := exists_of_run_bind h
    cases hm
    exact .inl rfl
  | _ => cases hx

theorem captureNodes_of_leaf (hx : x.node.isLeaf = true) (h : x.Lowers e call m) :
    m.captureNodes = [] := by
  rcases isInert_of_leaf hx h with hinert | ⟨_, _, _, _, -, rfl⟩
  · refine List.filter_eq_nil_iff.2 fun c hc => ?_
    have := List.all_eq_true.1 hinert c hc
    cases c <;> simp_all [Node.isInert, Node.isCapture]
  · rfl

theorem lowers_group {kind : Source.GroupKind} (h : Lowers e call ⟨t, s, .group kind body⟩ m) :
    ∃ b, Lowers e call
        ⟨innerTrail ⟨t, s, .group kind body⟩, innerScope ⟨t, s, .group kind body⟩, body⟩ b ∧
      m = groupNode s.inClone b kind := by
  obtain ⟨st, st', h⟩ := h
  cases kind <;>
  · rw [lowerNode] at h
    obtain ⟨b, st₁, hb, h⟩ := exists_of_run_bind h
    cases h
    exact ⟨b, ⟨_, _, hb⟩, rfl⟩

theorem lowers_repeated {q : Quantifier} (h : Lowers e call ⟨t, s, .repeated body q⟩ m) :
    ∃ b, Lowers e call ⟨t, s.nested, body⟩ b ∧ m = .repeated b q := by
  obtain ⟨st, st', h⟩ := h
  rw [lowerNode] at h
  obtain ⟨b, st₁, hb, h⟩ := exists_of_run_bind h
  cases h
  exact ⟨b, ⟨_, _, hb⟩, rfl⟩

theorem lowers_alternation (h : Lowers e call ⟨t, s, .alternation ns⟩ m) :
    ∃ ms, List.Forall₂ (fun n m => Lowers e call ⟨t, s.nested, n⟩ m) ns ms ∧ m = .alternation ms := by
  obtain ⟨st, st', h⟩ := h
  rw [lowerNode] at h
  obtain ⟨ms, st₁, hms, h⟩ := exists_of_run_bind h
  cases h
  exact ⟨ms, forall₂_of_lowerAll hms, rfl⟩

/-- Below the top level all parts of a sequence are lowered. -/
theorem lowers_sequence_of_nested (hs : s.topLevel = false)
    (h : Lowers e call ⟨t, s, .sequence ns⟩ m) :
    ∃ ms, List.Forall₂ (fun n m => Lowers e call ⟨t, s.nested, n⟩ m) ns ms ∧ m = .ofSequence ms := by
  obtain ⟨st, st', h⟩ := h
  rw [lowerNode, hs, if_neg Bool.false_ne_true] at h
  obtain ⟨ms, st₁, hms, h⟩ := exists_of_run_bind h
  cases h
  obtain ⟨ps, hps, hlowers⟩ := forall₂_of_lowerParts hms
  exact ⟨ms, hps ▸ hlowers, rfl⟩

/-- The parts of a sequence, in terms of their captures. -/
theorem lowers_sequence (h : Lowers e call ⟨t, s, .sequence ns⟩ m) :
    ∃ ms, Gathered e call t s.nested [] ns ms ∧ m.captureNodes = Node.captureNodesAll ms := by
  obtain ⟨st, st', h⟩ := h
  rw [lowerNode] at h
  obtain ⟨ms, st₁, hms, h⟩ := exists_of_run_bind h
  cases h
  exact ⟨ms, gathered_of_lowerParts (cutAtKeep_sequence s ns) hms, Node.captureNodes_ofSequence ms⟩

theorem not_lowers_absent : ¬ Lowers e call ⟨t, s, .absent body⟩ m := by
  rintro ⟨st, st', h⟩
  rw [lowerNode] at h
  cases h

/-- What is directly below a lowered place has been lowered, unless it is a `\K`, and its captures
are kept. -/
theorem lowers_below (h : x.Lowers e call m) (hy : x.Below y) (hkeep : y.node ≠ .keep) :
    ∃ m', y.Lowers e call m' ∧ ∀ c ∈ m'.captureNodes, c ∈ m.captureNodes := by
  obtain ⟨t, s, n⟩ := x
  obtain ⟨_, _, n'⟩ := y
  obtain ⟨rfl, rfl, hchild⟩ := hy
  dsimp only at hchild hkeep
  cases hchild with
  | sequence hn =>
    obtain ⟨ms, hms, hcaptures⟩ := lowers_sequence h
    rw [hcaptures]
    exact hms.kept n' hn hkeep
  | alternation hn =>
    obtain ⟨ms, hms, rfl⟩ := lowers_alternation h
    obtain ⟨m', hm', hlowers⟩ := (exists_partner hms).1 n' hn
    exact ⟨m', hlowers, fun c hc => Node.mem_captureNodesAll.2 ⟨m', hm', hc⟩⟩
  | group kind =>
    obtain ⟨b, hb, rfl⟩ := lowers_group h
    refine ⟨b, hb, fun c hc => ?_⟩
    rcases captureNodes_groupNode s.inClone b kind with ⟨_, _, -, hcaptures⟩ | hcaptures
    · rw [hcaptures]
      exact List.mem_cons_of_mem _ hc
    · rwa [hcaptures]
  | repeated _ q =>
    obtain ⟨b, hb, rfl⟩ := lowers_repeated h
    exact ⟨b, hb, fun c hc => hc⟩
  | absent => exact absurd h not_lowers_absent

/-- A capture of a lowered tree is the tree itself, comes from a call, or comes from what is directly
below. -/
theorem exists_below (h : x.Lowers e call m) (hc : c ∈ m.captureNodes) :
    (c = m ∧ ∃ number name body, x.node = .group (.capture number name) body) ∨
    (∃ place ref target, x.node = .subroutine place ref target) ∨
    ∃ y m', x.Below y ∧ y.Lowers e call m' ∧ c ∈ m'.captureNodes := by
  by_cases hleaf : x.node.isLeaf = true
  · rw [captureNodes_of_leaf hleaf h] at hc
    cases hc
  obtain ⟨t, s, n⟩ := x
  cases n with
  | sequence ns =>
    obtain ⟨ms, hms, hcaptures⟩ := lowers_sequence h
    rw [hcaptures] at hc
    rcases hms.found c hc with hc | ⟨n, hn, m', hm', hc⟩
    · cases hc
    · exact .inr (.inr ⟨⟨t, s.nested, n⟩, m', ⟨rfl, rfl, .sequence hn⟩, hm', hc⟩)
  | alternation ns =>
    obtain ⟨ms, hms, rfl⟩ := lowers_alternation h
    obtain ⟨m', hm', hc⟩ := Node.mem_captureNodesAll.1 hc
    obtain ⟨n, hn, hlowers⟩ := (exists_partner hms).2 m' hm'
    exact .inr (.inr ⟨⟨t, s.nested, n⟩, m', ⟨rfl, rfl, .alternation hn⟩, hlowers, hc⟩)
  | group kind body =>
    obtain ⟨b, hb, rfl⟩ := lowers_group h
    rcases captureNodes_groupNode s.inClone b kind with ⟨number, name, rfl, hcaptures⟩ | hcaptures
    · rw [hcaptures] at hc
      rcases List.mem_cons.1 hc with rfl | hc
      · exact .inl ⟨rfl, number, name, body, rfl⟩
      · exact .inr (.inr ⟨_, b, ⟨rfl, rfl, .group _ body⟩, hb, hc⟩)
    · rw [hcaptures] at hc
      exact .inr (.inr ⟨_, b, ⟨rfl, rfl, .group _ body⟩, hb, hc⟩)
  | repeated body q =>
    obtain ⟨b, hb, rfl⟩ := lowers_repeated h
    exact .inr (.inr ⟨⟨t, s.nested, body⟩, b, ⟨rfl, rfl, .repeated body q⟩, hb, hc⟩)
  | subroutine place ref target => exact .inr (.inl ⟨place, ref, target, rfl⟩)
  | absent => exact absurd h not_lowers_absent
  | _ => exact absurd rfl hleaf

/-! ## All places -/

theorem node_ne_keep_of_below (h : x.Below y) : x.node ≠ .keep := by
  intro hx
  obtain ⟨-, -, hchild⟩ := h
  rw [hx] at hchild
  cases hchild

/-- **Every part of a lowered tree has been lowered**, unless it is a `\K`, and its captures are
kept. -/
theorem lowers_of_reaches (h : x.Lowers e call m) (hy : x.Reaches y) (hkeep : y.node ≠ .keep) :
    ∃ m', y.Lowers e call m' ∧ ∀ c ∈ m'.captureNodes, c ∈ m.captureNodes := by
  induction hy with
  | refl => exact ⟨m, h, fun c hc => hc⟩
  | tail _ hbelow ih =>
    obtain ⟨m₁, h₁, hc₁⟩ := ih (node_ne_keep_of_below hbelow)
    obtain ⟨m₂, h₂, hc₂⟩ := lowers_below h₁ hbelow hkeep
    exact ⟨m₂, h₂, fun c hc => hc₁ c (hc₂ c hc)⟩

/-- **Every capture of a lowered tree comes from a capture group or from a call.** -/
theorem exists_reaches {x : Place} {m : Node} (h : x.Lowers e call m) (hc : c ∈ m.captureNodes) :
    ∃ y m', x.Reaches y ∧ y.Lowers e call m' ∧ c ∈ m'.captureNodes ∧
      ((c = m' ∧ ∃ number name body, y.node = .group (.capture number name) body) ∨
        ∃ place ref target, y.node = .subroutine place ref target) := by
  rcases exists_below h hc with hself | hcall | ⟨y, m', hbelow, hy, hc'⟩
  · exact ⟨x, m, .refl, h, hc, .inl hself⟩
  · exact ⟨x, m, .refl, h, hc, .inr hcall⟩
  · have hsize := Source.Node.sizeOf_child hbelow.2.2
    obtain ⟨z, m₂, hz, hrest⟩ := exists_reaches hy hc'
    exact ⟨z, m₂, .head hbelow hz, hrest⟩
termination_by sizeOf x.node

end Place

end Core

end Diglot
