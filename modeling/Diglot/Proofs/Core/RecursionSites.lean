import Diglot.Proofs.Core.CallDepth
import Diglot.Proofs.Simulation

/-!
# Where recursions are

A call to a group around it, or to the whole pattern, becomes a recursion. Lowering keeps the groups
around a place, the groups in whose copies the place lies, and whether there has been a recursion.
So a lowered pattern has one recursion at most, which is in no copy and which goes to the whole
pattern or to a visible capture around it.

The groups in whose copies a place lies are all around it, so a call to one of them is taken for a
recursion first. The refusal of groups that call each other is never the one that is given.

Strict accuracy is asked for in many places, but only ever to refuse a construct. So what is lowered
under strict accuracy is lowered to the same tree when approximations are admitted.
-/

namespace Diglot.Core

variable {e : Lowering} {call call' : Trail → Scope → Nat → Lower Node}

/-! ## Recursions of trees -/

namespace Node

/-- A recursion of a tree: where it goes, and the captures around it, the outermost first. -/
structure Site where
  target : Nat
  around : List Heading
  deriving DecidableEq, Repr

/-- The same recursion with one more capture around it. -/
def Site.within (h : Heading) (r : Site) : Site :=
  { r with around := h :: r.around }

mutual

/-- The recursions of a tree, in the order of the walk. -/
def sites : Node → List Site
  | recursion target => [⟨target, []⟩]
  | capture number name hidden origin body =>
    body.sites.map (.within ⟨number, name, hidden, origin⟩)
  | sequence ns | alternation ns => sitesAll ns
  | group body | atomic body | look _ body | repeated body _ => body.sites
  | _ => []

/-- The recursions of several trees. -/
def sitesAll : List Node → List Site
  | [] => []
  | n :: ns => n.sites ++ sitesAll ns

end

mutual

/-- There are as many recursions as the walk comes by. -/
theorem length_sites (n : Node) : n.sites.length = n.walk.countP isRecursion := by
  cases n with
  | sequence ns | alternation ns =>
    rw [sites, walk, List.countP_cons_of_neg Bool.false_ne_true, length_sitesAll ns]
  | capture _ _ _ _ body =>
    rw [sites, walk, List.countP_cons_of_neg Bool.false_ne_true, List.length_map, length_sites body]
  | group body | atomic body | look _ body | repeated body =>
    rw [sites, walk, List.countP_cons_of_neg Bool.false_ne_true, length_sites body]
  | _ => rfl

theorem length_sitesAll : ∀ (ns : List Node),
    (sitesAll ns).length = (walkAll ns).countP isRecursion
  | [] => rfl
  | n :: ns => by
    rw [sitesAll, walkAll, List.length_append, List.countP_append, length_sites n,
      length_sitesAll ns]

end

theorem sitesAll_append (ns ms : List Node) : sitesAll (ns ++ ms) = sitesAll ns ++ sitesAll ms := by
  induction ns with
  | nil => rfl
  | cons n ns ih => rw [List.cons_append, sitesAll, ih, sitesAll, List.append_assoc]

theorem sites_of_isEmpty {m : Node} (h : m.isEmpty = true) : m.sites = [] := by
  cases m <;> first | rfl | cases h

theorem sitesAll_filter (ms : List Node) : sitesAll (ms.filter (!·.isEmpty)) = sitesAll ms := by
  induction ms with
  | nil => rfl
  | cons m ms ih =>
    by_cases h : m.isEmpty = true
    · rw [List.filter_cons_of_neg (by simp [h]), ih, sitesAll, sites_of_isEmpty h, List.nil_append]
    · rw [List.filter_cons_of_pos (by simp [h]), sitesAll, sitesAll, ih]

theorem sites_ofSequence (ms : List Node) : (ofSequence ms).sites = sitesAll ms := by
  rw [← sitesAll_filter ms]
  unfold ofSequence
  split
  next h => rw [h]; rfl
  next m h => rw [h, sitesAll, sitesAll, List.append_nil]
  next => rfl

theorem sites_parenthesized (m : Node) : (parenthesized m).sites = m.sites := by
  unfold parenthesized
  split
  · rw [sites]
  · rfl

end Node

/-! ## Recursions of a part of a pattern -/

/-- What holds of the recursions of a part of a pattern, inside the groups `ancestors`. There has
been a recursion before it if `st` holds, and before its end if `st'` holds. -/
structure Placed (ancestors : List Nat) (inClone st st' : Bool) (rs : List Node.Site) : Prop where
  counted : st.toNat + rs.length = st'.toNat
  cloned : inClone = true → rs = []
  visible : ∀ r ∈ rs, ∀ h ∈ r.around, h.hidden = false
  anchored : ∀ r ∈ rs, r.target = 0 ∨ r.target ∈ ancestors ∨ ∃ h ∈ r.around, h.number = r.target

namespace Placed

variable {ancestors : List Nat} {inClone st st' st'' : Bool} {rs rs' : List Node.Site}

theorem nil (ancestors : List Nat) (inClone st : Bool) : Placed ancestors inClone st st [] :=
  ⟨rfl, fun _ => rfl, by simp, by simp⟩

theorem append (h : Placed ancestors inClone st st' rs)
    (h' : Placed ancestors inClone st' st'' rs') :
    Placed ancestors inClone st st'' (rs ++ rs') where
  counted := by rw [List.length_append, ← h'.counted, ← h.counted, Nat.add_assoc]
  cloned hc := by rw [h.cloned hc, h'.cloned hc, List.append_nil]
  visible := List.forall_mem_append.2 ⟨h.visible, h'.visible⟩
  anchored := List.forall_mem_append.2 ⟨h.anchored, h'.anchored⟩

/-- Inside a group, the group itself may be the target. -/
theorem capture {number : Nat} {name : Option String} {origin : Option Nat}
    (h : Placed (number :: ancestors) inClone st st' rs) :
    Placed ancestors inClone st st' (rs.map (.within ⟨number, name, inClone, origin⟩)) where
  counted := by rw [List.length_map, h.counted]
  cloned hc := by rw [h.cloned hc, List.map_nil]
  visible := by
    intro r' hr'
    obtain ⟨r, hr, rfl⟩ := List.mem_map.1 hr'
    refine List.forall_mem_cons.2 ⟨?_, h.visible r hr⟩
    -- there are no recursions in a copy
    by_contra hc
    rw [h.cloned (Bool.not_eq_false _ ▸ hc)] at hr
    cases hr
  anchored := by
    intro r' hr'
    obtain ⟨r, hr, rfl⟩ := List.mem_map.1 hr'
    rcases h.anchored r hr with hroot | hmem | ⟨k, hk, hnumber⟩
    · exact .inl hroot
    · rcases List.mem_cons.1 hmem with hself | hmem
      · exact .inr (.inr ⟨_, List.mem_cons_self, hself.symm⟩)
      · exact .inr (.inl hmem)
    · exact .inr (.inr ⟨k, List.mem_cons_of_mem _ hk, hnumber⟩)

/-- A copy has no recursions, wherever it stands. -/
theorem copy {ancestors' : List Nat} (h : Placed ancestors' true st st' rs) (k : Heading) :
    Placed ancestors inClone st st' (rs.map (.within k)) := by
  obtain rfl := h.cloned rfl
  exact ⟨h.counted, fun _ => rfl, by simp, by simp⟩

theorem recursion {target : Nat} (h : target = 0 ∨ target ∈ ancestors) :
    Placed ancestors false false true [⟨target, []⟩] :=
  ⟨rfl, by simp, by simp, by simpa using h⟩

end Placed

/-! ## Outcomes -/

/-- The refusal of a feature other than groups that call each other. -/
def IsRefusal (err : Error) : Prop :=
  ∃ f, f ≠ .mutualRecursion ∧ err = .unsupported f

/-- A computation ends with a result of which `P` holds, or refuses a feature. With approximations
admitted it is `y`, which has the same result. -/
abbrev Ends {α : Type} (x y : Except Error α) (P : α → Prop) : Prop :=
  Refines IsRefusal (fun a b => a = b ∧ P a) x y

namespace Ends

variable {α β : Type} {P : α → Prop} {Q : β → Prop} {st : Bool} {x y : Except Error α}

theorem ok {a : α} (h : P a) : Ends (.ok a) (.ok a) P :=
  Refines.ok ⟨rfl, h⟩

theorem refuse {f : Feature} (h : f ≠ .mutualRecursion) : Ends (.error (.unsupported f)) y P :=
  Refines.error ⟨f, h, rfl⟩ y

theorem bind {f g : α → Except Error β} (hx : Ends x y P) (hf : ∀ a, P a → Ends (f a) (g a) Q) :
    Ends (x >>= f) (y >>= g) Q := by
  refine Refines.bind hx ?_
  rintro a _ ⟨rfl, ha⟩
  exact hf a ha

theorem run_bind {x y : Lower α} {f g : α → Lower β} {P : α × Bool → Prop} {Q : β × Bool → Prop}
    (hx : Ends (x.run st) (y.run st) P)
    (hf : ∀ a st', P (a, st') → Ends ((f a).run st') ((g a).run st') Q) :
    Ends ((x >>= f).run st) ((y >>= g).run st) Q := by
  rw [StateT.run_bind, StateT.run_bind]
  exact hx.bind fun r hr => hf r.1 r.2 hr

/-- A step that does not depend on the recursions before it. -/
theorem run_lift {f g : α → Lower β} {Q : β × Bool → Prop} (hx : Ends x y P)
    (hf : ∀ a, P a → Ends ((f a).run st) ((g a).run st) Q) :
    Ends ((liftM x >>= f).run st) ((liftM y >>= g).run st) Q := by
  refine run_bind (P := fun r => P r.1 ∧ r.2 = st) (hx.bind fun a ha => .ok ⟨ha, rfl⟩) ?_
  rintro a _ ⟨ha, rfl⟩
  exact hf a ha

theorem approximate (strict : Bool) (what : Approximation) :
    Ends (Core.approximate strict what) (Core.approximate false what) fun _ => True := by
  cases strict with
  | true => exact .refuse (by simp)
  | false => exact .ok trivial

end Ends

/-! ## Constructs -/

/-- The lowering with approximations admitted. -/
def Lowering.lenient (e : Lowering) : Lowering :=
  { e with options := { e.options with strict := false } }

section

variable (flags : Flags) (strict ic : Bool)

theorem ends_lowerSet (x : Source.CharSet) :
    Ends (lowerSet ⟨flags, strict⟩ x) (lowerSet ⟨flags, false⟩ x) fun _ => True := by
  cases x with
  | posix name negated =>
    show Ends (lowerPosix _ name negated) (lowerPosix _ name negated) _
    have hascii : SetOptions.posixIsAscii ⟨flags, strict⟩ name
        = SetOptions.posixIsAscii ⟨flags, false⟩ name := rfl
    unfold lowerPosix
    rw [hascii]
    split
    next => exact .refuse (by simp)
    next =>
      split
      · exact (Ends.approximate _ _).bind fun _ _ => .ok trivial
      · exact .ok trivial
  | _ => exact .ok trivial

mutual

theorem ends_lowerClass : ∀ (c : Source.CharClass),
    Ends (lowerClass ⟨flags, strict⟩ ic c) (lowerClass ⟨flags, false⟩ ic c) fun _ => True
  | .mk _ items => (ends_lowerItems items).bind fun _ _ => .ok trivial

theorem ends_lowerItems : ∀ (is : List Source.ClassItem),
    Ends (lowerItems ⟨flags, strict⟩ ic is) (lowerItems ⟨flags, false⟩ ic is) fun _ => True
  | [] => .ok trivial
  | i :: is => (ends_lowerItem i).bind fun _ _ => (ends_lowerItems is).bind fun _ _ => .ok trivial

theorem ends_lowerItem : ∀ (i : Source.ClassItem),
    Ends (lowerItem ⟨flags, strict⟩ ic i) (lowerItem ⟨flags, false⟩ ic i) fun _ => True
  | .char _ | .range _ _ => .ok trivial
  | .set x => (ends_lowerSet flags strict x).bind fun _ _ => .ok trivial
  | .nested c => (ends_lowerClass c).bind fun _ _ => .ok trivial
  | .intersection cs => (ends_lowerOperands cs).bind fun _ _ => .ok trivial

theorem ends_lowerOperands : ∀ (cs : List Source.CharClass),
    Ends (lowerOperands ⟨flags, strict⟩ ic cs) (lowerOperands ⟨flags, false⟩ ic cs) fun _ => True
  | [] => .ok trivial
  | c :: cs => (ends_lowerClass c).bind fun _ _ =>
    (ends_lowerOperands cs).bind fun _ _ => .ok trivial

end

end

theorem ends_lowerAssertion (e : Lowering) (a : Source.Assertion) :
    Ends (lowerAssertion e a) (lowerAssertion e.lenient a) fun m => m.sites = [] := by
  have hboundary : ∀ negated, (lowerAssertion.boundary e negated).sites = [] := by
    intro negated
    unfold lowerAssertion.boundary
    split <;> rfl
  show Ends (lowerAssertion e a) (lowerAssertion e a) _
  cases a with
  | lineStart | lineEnd =>
    refine .ok ?_
    split <;> rfl
  | stringStart | stringEnd | stringEndNewline => exact .ok rfl
  | searchStart => exact .refuse (by simp)
  | wordBoundary => exact .ok (hboundary false)
  | nonWordBoundary => exact .ok (hboundary true)

theorem ends_lowerRecursion {e : Lowering} {t : Trail} {s : Scope} {target : Nat} {st : Bool}
    (h : target = 0 ∨ target ∈ t.ancestors) :
    Ends ((lowerRecursion e t s target).run st) ((lowerRecursion e.lenient t s target).run st)
      fun r => Placed t.ancestors s.inClone st r.2 r.1.sites := by
  unfold lowerRecursion
  split
  next => exact .refuse (by simp)
  next hplace =>
    cases st with
    | true => exact .refuse (by simp)
    | false =>
      have hclone : s.inClone = false := by
        rw [← Bool.not_eq_true]
        intro hc
        simp [hc] at hplace
      rw [hclone]
      show Ends ((do e.approximate .recursion; return .recursion target : Lower Node).run true)
        ((do e.lenient.approximate .recursion; return .recursion target : Lower Node).run true) _
      exact .run_lift (Ends.approximate _ _) fun _ _ => .ok (.recursion h)

/-! ## Trees -/

/-- What calls become has its recursions in place, if all groups in whose copies the call lies are
around it. -/
def CallsPlaced (call call' : Trail → Scope → Nat → Lower Node) : Prop :=
  ∀ t s target st, t.inlining ⊆ t.ancestors →
    Ends ((call t s target).run st) ((call' t s target).run st)
      fun r => Placed t.ancestors s.inClone st r.2 r.1.sites

section

variable (hcall : CallsPlaced call call')

include hcall

set_option linter.unusedSectionVars false

mutual

theorem ends_lowerNode (n : Source.Node) (t : Trail) (s : Scope) (st : Bool)
    (ht : t.inlining ⊆ t.ancestors) :
    Ends ((lowerNode e call t s n).run st) ((lowerNode e.lenient call' t s n).run st)
      fun r => Placed t.ancestors s.inClone st r.2 r.1.sites := by
  cases n with
  | empty | literal | dot | lineBreak => exact .ok (.nil _ _ _)
  | set x =>
    rw [lowerNode, lowerNode]
    exact .run_lift (ends_lowerSet _ _ x) fun _ _ => .ok (.nil _ _ _)
  | charClass c =>
    rw [lowerNode, lowerNode]
    exact .run_lift (ends_lowerClass _ _ _ c) fun _ _ => .ok (.nil _ _ _)
  | sequence ns =>
    rw [lowerNode, lowerNode]
    refine .run_bind (ends_lowerParts ns t s.nested _ [] st st ht (.nil _ _ _)) ?_
    intro ms st' hms
    refine .ok ?_
    rw [Node.sites_ofSequence]
    exact hms
  | alternation ns =>
    rw [lowerNode, lowerNode]
    exact .run_bind (ends_lowerAll ns t s.nested st ht) fun ms st' hms => .ok hms
  | group kind body =>
    cases kind with
    | capture number name =>
      rw [lowerNode, lowerNode]
      refine .run_bind (ends_lowerNode body _ s.nested st (List.subset_cons_of_subset _ ht)) ?_
      exact fun b st' hb => .ok hb.capture
    | flags change =>
      rw [lowerNode, lowerNode]
      refine .run_bind (ends_lowerNode body t (s.apply change) st ht) fun b st' hb => .ok ?_
      rw [Node.sites_parenthesized]
      exact hb
    | _ =>
      rw [lowerNode, lowerNode]
      exact .run_bind (ends_lowerNode body t s.nested st ht) fun b st' hb => .ok hb
  | repeated body =>
    rw [lowerNode, lowerNode]
    exact .run_bind (ends_lowerNode body t s.nested st ht) fun b st' hb => .ok hb
  | assertion a =>
    rw [lowerNode, lowerNode]
    refine Ends.bind (ends_lowerAssertion e a) fun m hm => .ok ?_
    dsimp only
    rw [hm]
    exact .nil _ _ _
  | backreference =>
    rw [lowerNode, lowerNode]
    split
    · exact .run_lift (Ends.approximate _ _) fun _ _ => .ok (.nil _ _ _)
    · exact .ok (.nil _ _ _)
  | subroutine _ _ target => exact hcall t s target st ht
  | keep =>
    rw [lowerNode, lowerNode]
    split
    · exact .ok (.nil _ _ _)
    · exact .refuse (by simp)
  | grapheme =>
    rw [lowerNode, lowerNode]
    exact .run_lift (Ends.approximate _ _) fun _ _ => .ok (.nil _ _ _)
  | absent => exact .refuse (by simp)

theorem ends_lowerAll : ∀ (ns : List Source.Node) (t : Trail) (s : Scope) (st : Bool),
    t.inlining ⊆ t.ancestors →
    Ends ((lowerAll e call t s ns).run st) ((lowerAll e.lenient call' t s ns).run st)
      fun r => Placed t.ancestors s.inClone st r.2 (Node.sitesAll r.1)
  | [], t, s, st, _ => .ok (.nil _ _ _)
  | n :: ns, t, s, st, ht => by
    rw [lowerAll, lowerAll]
    refine .run_bind (ends_lowerNode n t s st ht) fun first st₁ hfirst => ?_
    refine .run_bind (ends_lowerAll ns t s st₁ ht) fun others st₂ hothers => ?_
    exact .ok (hfirst.append hothers)

/-- The parts of a sequence, of which `done` have been lowered. -/
theorem ends_lowerParts : ∀ (ns : List Source.Node) (t : Trail) (s : Scope) (cut : Option Nat)
    (done : List Node) (st₀ st : Bool), t.inlining ⊆ t.ancestors →
    Placed t.ancestors s.inClone st₀ st (Node.sitesAll done.reverse) →
    Ends ((lowerParts e call t s cut done ns).run st)
      ((lowerParts e.lenient call' t s cut done ns).run st)
      fun r => Placed t.ancestors s.inClone st₀ r.2 (Node.sitesAll r.1)
  | [], t, s, cut, done, st₀, st, _, hdone => by
    rw [lowerParts, lowerParts]
    exact .ok hdone
  | n :: ns, t, s, cut, done, st₀, st, ht, hdone => by
    have hstep : ∀ cut', Ends
        ((do
          let part ← lowerNode e call t s n
          lowerParts e call t s cut' (part :: done) ns).run st)
        ((do
          let part ← lowerNode e.lenient call' t s n
          lowerParts e.lenient call' t s cut' (part :: done) ns).run st)
        fun r => Placed t.ancestors s.inClone st₀ r.2 (Node.sitesAll r.1) := by
      intro cut'
      refine .run_bind (ends_lowerNode n t s st ht) fun part st₁ hpart => ?_
      refine ends_lowerParts ns t s cut' _ st₀ st₁ ht ?_
      rw [List.reverse_cons, Node.sitesAll_append]
      refine hdone.append ?_
      simpa [Node.sitesAll] using hpart
    unfold lowerParts
    split
    next =>
      -- what comes before the cut is only looked for, or there is nothing
      dsimp only
      split
      next hempty =>
        refine ends_lowerParts ns t s none [] st₀ st ht ?_
        rw [← Node.sites_ofSequence, Node.sites_of_isEmpty hempty] at hdone
        exact hdone
      next =>
        refine .run_lift (Ends.approximate _ _) fun _ _ => ?_
        refine ends_lowerParts ns t s none _ st₀ _ ht ?_
        rw [← Node.sites_ofSequence] at hdone
        simpa [Node.sitesAll, Node.behind, Node.sites] using hdone
    next => exact ends_lowerParts ns t s _ done st₀ st ht hdone
    next => exact hstep _
    next => exact hstep _

end

end

/-- However deep calls may lead: a call to a group in whose copy it lies is a recursion first. -/
theorem callsPlaced_lowerCall (e : Lowering) (depth : Nat) :
    CallsPlaced (lowerCall e depth) (lowerCall e.lenient depth) := by
  induction depth using Nat.strongRecOn with
  | ind depth ih =>
    intro t s target st ht
    have hdefinition : e.lenient.definition? target = e.definition? target := rfl
    unfold lowerCall
    rw [hdefinition]
    split
    next h => exact ends_lowerRecursion (by simpa using h)
    next hout =>
      split
      next hmem =>
        have hancestor := ht (List.contains_iff_mem.1 hmem)
        simp [hancestor] at hout
      next =>
        split
        next depth d hdef =>
          have hcall := ih depth (Nat.lt_succ_self depth)
          refine .run_bind (ends_lowerNode hcall d.body (t.into target) d.scope.inCopy st ?_) ?_
          · exact List.cons_subset_cons _ ht
          · exact fun b st' hb => .ok (hb.copy _)
        next => exact .refuse (by simp)

theorem ends_lower (o : LowerOptions) (p : Source.Pattern) :
    Ends (Pattern.lower o p) (Pattern.lower { o with strict := false } p)
      fun q => ∃ st, Placed [] false false st q.root.sites := by
  unfold Pattern.lower
  dsimp only
  split
  next => exact .refuse (by simp)
  next =>
    refine .bind (P := fun m => ∃ st, Placed [] false false st m.sites) ?_ fun m hm => .ok hm
    refine .bind (ends_lowerNode (callsPlaced_lowerCall (.of o p) _) _ {} (.root p) false
      (List.Subset.refl _)) fun r hr => .ok ⟨r.2, hr⟩

/-- **There is one recursion at most, and it is in place.** In a lowered pattern, only visible
captures are around a recursion, and it goes to the whole pattern or to one of them. No pattern is
refused for groups that call each other: the groups in whose copies a call lies are all around it.
-/
theorem recursion_placed (o : LowerOptions) (p : Source.Pattern) :
    (∀ q, Pattern.lower o p = .ok q → q.root.walk.countP Node.isRecursion ≤ 1 ∧
      ∀ r ∈ q.root.sites, (∀ h ∈ r.around, h.hidden = false) ∧
        (r.target = 0 ∨ ∃ h ∈ r.around, h.number = r.target)) ∧
    Pattern.lower o p ≠ .error (.unsupported .mutualRecursion) ∧
    ∀ inlined y, (Place.stripped o p).Visits (.of o p) inlined y → inlined ⊆ y.trail.ancestors := by
  refine ⟨fun q hq => ?_, fun herr => ?_, fun inlined y hy => ?_⟩
  · obtain ⟨_, -, -, st, hplaced⟩ := (ends_lower o p).succeeds q hq
    refine ⟨?_, fun r hr => ⟨hplaced.visible r hr, ?_⟩⟩
    · have hcounted := hplaced.counted
      have hst := st.toNat_le
      rw [← Node.length_sites]
      omega
    · simpa using hplaced.anchored r hr
  · obtain ⟨f, hf, h⟩ := (ends_lower o p).fails _ herr
    cases h
    exact hf rfl
  · obtain ⟨rfl, hsound⟩ := hy.sound rfl
    exact hsound.around

/-- A group that calls itself inside another: the recursion is in both and goes to the inner one. -/
theorem recursion_placed_inner : ∃ p q,
    Source.Pattern.read {} "(a(b\\g<2>?c))".toList = .ok p ∧ Pattern.lower {} p = .ok q ∧
    q.root.sites = [⟨2, [⟨1, none, false, none⟩, ⟨2, none, false, none⟩]⟩] ∧
    q.root.walk.countP Node.isRecursion ≤ 1 := by
  obtain ⟨p, hread, q, hlower, hsites⟩ : ∃ p,
      Source.Pattern.read {} "(a(b\\g<2>?c))".toList = .ok p ∧ ∃ q, Pattern.lower {} p = .ok q ∧
        q.root.sites = [⟨2, [⟨1, none, false, none⟩, ⟨2, none, false, none⟩]⟩] := by
    decide +kernel
  exact ⟨p, q, hread, hlower, hsites, ((recursion_placed {} p).1 q hlower).1⟩

end Diglot.Core
