import Diglot.Proofs.Core.Clones
import Mathlib.Data.Finset.Card
import Mathlib.Data.Finset.Dedup
import Mathlib.Data.Prod.Lex

/-!
# How deep calls lead

A call leads into the definition of a group, which is no part of the tree with the call, and the
definition may have calls again. Groups may call each other, themselves or the whole pattern in any
way. All the same lowering comes to an end: a call is followed only out of the groups around it, and
the group that it leads to is around all that comes then.

So each step leads to a place with fewer groups left to call or to a smaller tree (`Place.Leads`),
and the bound on the depth of calls is never what stops one (`lowerCall_eq_expandCall`).
-/

namespace Diglot.Core

variable {e : Lowering} {target : Nat} {d : Definition} {t t' : Trail} {outer : List Nat}
  {call call' : Trail → Scope → Nat → Lower Node}

/-- The groups around a copy of a group. -/
def Trail.into (t : Trail) (target : Nat) : Trail :=
  ⟨target :: t.ancestors, target :: t.inlining⟩

/-- The numbers of the groups that calls can lead to. -/
def Lowering.groups (e : Lowering) : Finset Nat :=
  (e.definitions.map (·.number)).toFinset

theorem Lowering.mem_groups (h : e.definition? target = some d) : target ∈ e.groups := by
  have hnumber : d.number = target := by simpa using List.find?_some h
  rw [Lowering.groups, List.mem_toFinset, ← hnumber]
  exact List.mem_map_of_mem (List.mem_of_find?_eq_some h)

theorem groups_of (o : LowerOptions) (p : Source.Pattern) :
    (Lowering.of o p).groups = (p.root.captures.map (·.1)).toFinset := by
  rw [Lowering.groups, Lowering.of, numbers_definitions, List.toFinset_reverse]

/-! ## Steps of lowering -/

namespace Place

/-- At `x` is a call of the group `target` that is no recursion, and `y` is the definition that is
copied for it. -/
inductive Copies (e : Lowering) (target : Nat) : Place → Place → Prop where
  | call {t : Trail} {s : Scope} {place : Nat} {ref : Source.Reference} {d : Definition}
      (hroot : target ≠ 0) (hout : target ∉ t.ancestors) (hfree : target ∉ t.inlining)
      (hdef : e.definition? target = some d) :
      Copies e target ⟨t, s, .subroutine place ref target⟩ ⟨t.into target, d.scope.inCopy, d.body⟩

/-- To lower what is at `x`, what is at `y` has to be lowered. -/
def Leads (e : Lowering) (x y : Place) : Prop :=
  x.Below y ∨ ∃ target, x.Copies e target y

/-- Lowering leads from `x` to `y`, which is in copies of the groups `inlined` then, the innermost
first. -/
inductive Visits (e : Lowering) (x : Place) : List Nat → Place → Prop where
  | refl : Visits e x [] x
  | down {inlined : List Nat} {y z : Place} (h : Visits e x inlined y) (hz : y.Below z) :
      Visits e x inlined z
  | copy {inlined : List Nat} {y z : Place} {target : Nat} (h : Visits e x inlined y)
      (hz : y.Copies e target z) : Visits e x (target :: inlined) z

end Place

/-- How many groups a call can still lead to. -/
def Trail.room (e : Lowering) (t : Trail) : Nat :=
  (e.groups \ t.ancestors.toFinset).card

theorem Trail.room_le (h : t.ancestors ⊆ t'.ancestors) : t'.room e ≤ t.room e := by
  refine Finset.card_le_card (Finset.sdiff_subset_sdiff subset_rfl fun k hk => ?_)
  exact List.mem_toFinset.2 (h (List.mem_toFinset.1 hk))

/-- Inside a group that was not around before, there is one group less to call. -/
theorem Trail.room_lt (hout : target ∉ t.ancestors) (hdef : e.definition? target = some d)
    (h : (t.into target).ancestors ⊆ t'.ancestors) : t'.room e < t.room e := by
  refine Finset.card_lt_card (Finset.ssubset_iff_of_subset ?_ |>.2 ⟨target, ?_, ?_⟩)
  · refine Finset.sdiff_subset_sdiff subset_rfl fun k hk => ?_
    exact List.mem_toFinset.2 (h (List.mem_cons_of_mem _ (List.mem_toFinset.1 hk)))
  · simpa using ⟨Lowering.mem_groups hdef, hout⟩
  · have hmem : target ∈ t'.ancestors := h List.mem_cons_self
    simp [hmem]

namespace Place

variable {x y : Place}

theorem ancestors_subset_of_below (h : x.Below y) : x.trail.ancestors ⊆ y.trail.ancestors :=
  fun _ hk => Reaches.ancestors (.single h) hk

theorem inlining_of_below (h : x.Below y) : y.trail.inlining = x.trail.inlining := by
  rw [h.1, innerTrail]
  split <;> rfl

/-- **Lowering comes to an end.** There are fewer groups left to call, or as many as before and the
tree is smaller. -/
theorem wellFounded_leads (e : Lowering) : WellFounded fun y x => Leads e x y := by
  let size (x : Place) : Nat × Nat := (x.trail.room e, sizeOf x.node)
  refine Subrelation.wf (r := InvImage (Prod.Lex (· < ·) (· < ·)) size) ?_
    (InvImage.wf size (Prod.lex Nat.lt_wfRel Nat.lt_wfRel).wf)
  intro y x h
  rcases h with hbelow | ⟨target, hcopies⟩
  · have hroom := Trail.room_le (e := e) (ancestors_subset_of_below hbelow)
    have hsize := Source.Node.sizeOf_child hbelow.2.2
    rcases Nat.lt_or_eq_of_le hroom with hlt | heq
    · exact .left _ _ hlt
    · show Prod.Lex _ _ (_, _) (_, _)
      rw [heq]
      exact .right _ hsize
  · cases hcopies with
    | call _ hout _ hdef => exact .left _ _ (Trail.room_lt hout hdef (List.Subset.refl _))

end Place

/-! ## Chains of copies -/

/-- What holds of the groups in whose copies a place lies. -/
structure Trail.Sound (e : Lowering) (t : Trail) : Prop where
  nodup : t.inlining.Nodup
  around : t.inlining ⊆ t.ancestors
  known : ∀ k ∈ t.inlining, k ∈ e.groups

namespace Trail.Sound

variable {x y : Place}

theorem below (h : x.trail.Sound e) (hy : x.Below y) : y.trail.Sound e := by
  have hsame := Place.inlining_of_below hy
  refine ⟨?_, ?_, ?_⟩
  · rw [hsame]
    exact h.nodup
  · rw [hsame]
    exact List.Subset.trans h.around (Place.ancestors_subset_of_below hy)
  · rw [hsame]
    exact h.known

theorem copy (h : x.trail.Sound e) (hy : x.Copies e target y) : y.trail.Sound e := by
  cases hy with
  | call hroot hout hfree hdef =>
    refine ⟨List.nodup_cons.2 ⟨hfree, h.nodup⟩, List.cons_subset_cons _ h.around, ?_⟩
    exact List.forall_mem_cons.2 ⟨Lowering.mem_groups hdef, h.known⟩

theorem length_le (h : t.Sound e) : t.inlining.length ≤ e.groups.card := by
  rw [← List.toFinset_card_of_nodup h.nodup]
  exact Finset.card_le_card fun k hk => h.known k (List.mem_toFinset.1 hk)

end Trail.Sound

/-- From the root on, the groups in whose copies a place lies are known at the place. -/
theorem Place.Visits.sound {x y : Place} {inlined : List Nat} (h : x.Visits e inlined y)
    (hx : x.trail = {}) : y.trail.inlining = inlined ∧ y.trail.Sound e := by
  induction h with
  | refl =>
    rw [hx]
    exact ⟨rfl, List.nodup_nil, List.Subset.refl _, by simp⟩
  | down _ hz ih =>
    obtain ⟨heq, hsound⟩ := ih
    exact ⟨(inlining_of_below hz).trans heq, hsound.below hz⟩
  | copy _ hz ih =>
    obtain ⟨heq, hsound⟩ := ih
    refine ⟨?_, hsound.copy hz⟩
    cases hz
    rw [← heq]
    rfl

/-! ## Calls without a bound -/

/-- What a call becomes if calls in the copy become what `call` says. Nothing bounds how deep calls
lead. -/
def expandCall (e : Lowering) (call : Trail → Scope → Nat → Lower Node) (t : Trail) (s : Scope)
    (target : Nat) : Lower Node :=
  if target = 0 || t.ancestors.contains target then lowerRecursion e t s target
  else if t.inlining.contains target then refuse .mutualRecursion
  else
    match e.definition? target with
    | some d => do
      let body ← lowerNode e call (t.into target) d.scope.inCopy d.body
      return .capture target d.name true (some target) body
    | none => refuse (.unknownGroup target)

/-- Two ways of lowering calls that do the same inside the groups `outer`. -/
def AgreeInside (outer : List Nat) (call call' : Trail → Scope → Nat → Lower Node) : Prop :=
  ∀ t s target, outer ⊆ t.ancestors → call t s target = call' t s target

mutual

/-- A tree has the same outcome if the calls inside the groups around it do. -/
theorem lowerNode_congr (h : AgreeInside outer call call') (n : Source.Node) (t : Trail) (s : Scope)
    (ht : outer ⊆ t.ancestors) : lowerNode e call t s n = lowerNode e call' t s n := by
  cases n with
  | group kind body =>
    cases kind with
    | capture =>
      rw [lowerNode, lowerNode, lowerNode_congr h body _ _ (List.subset_cons_of_subset _ ht)]
    | _ => rw [lowerNode, lowerNode, lowerNode_congr h body _ _ ht]
  | repeated body => rw [lowerNode, lowerNode, lowerNode_congr h body _ _ ht]
  | sequence ns => rw [lowerNode, lowerNode, lowerParts_congr h ns _ _ _ _ ht]
  | alternation ns => rw [lowerNode, lowerNode, lowerAll_congr h ns _ _ ht]
  | subroutine _ _ target => exact h t s target ht
  | _ => rfl

theorem lowerAll_congr (h : AgreeInside outer call call') :
    ∀ (ns : List Source.Node) (t : Trail) (s : Scope), outer ⊆ t.ancestors →
      lowerAll e call t s ns = lowerAll e call' t s ns
  | [], _, _, _ => rfl
  | n :: ns, t, s, ht => by
    rw [lowerAll, lowerAll, lowerNode_congr h n _ _ ht, lowerAll_congr h ns _ _ ht]

theorem lowerParts_congr (h : AgreeInside outer call call') :
    ∀ (ns : List Source.Node) (t : Trail) (s : Scope) (cut : Option Nat) (done : List Node),
      outer ⊆ t.ancestors → lowerParts e call t s cut done ns = lowerParts e call' t s cut done ns
  | [], _, _, _, _, _ => by rw [lowerParts, lowerParts]
  | n :: ns, t, s, cut, done, ht => by
    have hn := lowerNode_congr h n t s ht
    have hns := fun cut done => lowerParts_congr h ns t s cut done ht
    unfold lowerParts
    split
    next => simp only [hns]
    next => rw [hns]
    next => simp only [hn, hns]
    next => simp only [hn, hns]

end

/-- Calls in a copy lie inside the group that is copied. -/
theorem expandCall_congr {s : Scope}
    (h : ∀ d, target ∉ t.ancestors → e.definition? target = some d → AgreeInside (t.into target).ancestors call call')
    :
    expandCall e call t s target = expandCall e call' t s target := by
  unfold expandCall
  split
  next => rfl
  next hout =>
    split
    next => rfl
    next =>
      split
      next d hdef =>
        have hout : target ∉ t.ancestors := by
          intro hmem
          simp [hmem] at hout
        rw [lowerNode_congr (h d hout hdef) d.body _ _ (List.Subset.refl _)]
      next => rfl

theorem lowerCall_succ (depth : Nat) (t : Trail) (s : Scope) (target : Nat) :
    lowerCall e (depth + 1) t s target = expandCall e (lowerCall e depth) t s target := by
  unfold lowerCall expandCall
  cases e.definition? target <;> rfl

/-- **The bound on the depth of calls stops none.** It suffices that there is room for each group
that is not around yet. -/
theorem lowerCall_eq_expandCall {depth : Nat} (hroom : t.room e ≤ depth) (s : Scope) (target : Nat)
    :
    lowerCall e depth t s target = expandCall e (lowerCall e depth) t s target := by
  induction depth generalizing t s target with
  | zero =>
    unfold lowerCall expandCall
    split
    next => rfl
    next hout =>
      split
      next => rfl
      next =>
        cases hdef : e.definition? target with
        | none => rfl
        | some d =>
          -- such a group would leave room
          have hout : target ∉ t.ancestors := by
            intro hmem
            simp [hmem] at hout
          have := Trail.room_lt hout hdef (List.Subset.refl _)
          omega
  | succ depth ih =>
    rw [lowerCall_succ]
    refine expandCall_congr fun d hout hdef t' s' target' ht' => ?_
    have := Trail.room_lt hout hdef ht'
    rw [lowerCall_succ]
    exact ih (by omega) s' target'

/-- `call` says what calls become, also in the copies that they become. -/
def IsExpansion (e : Lowering) (call : Trail → Scope → Nat → Lower Node) : Prop :=
  ∀ t s target, call t s target = expandCall e call t s target

/-- The equation for calls has one solution: what there is no room for is never asked. -/
theorem IsExpansion.eq (h : IsExpansion e call) (h' : IsExpansion e call') : call = call' := by
  suffices hroom : ∀ n t, t.room e ≤ n → ∀ s target, call t s target = call' t s target by
    funext t s target
    exact hroom _ t le_rfl s target
  intro n
  induction n with
  | zero =>
    intro t ht s target
    rw [h, h']
    refine expandCall_congr fun d hout hdef => ?_
    have := Trail.room_lt hout hdef (List.Subset.refl _)
    omega
  | succ n ih =>
    intro t ht s target
    rw [h, h']
    refine expandCall_congr fun d hout hdef t' s' target' ht' => ?_
    have := Trail.room_lt hout hdef ht'
    exact ih t' (by omega) s' target'

theorem isExpansion_lowerCall (e : Lowering) :
    IsExpansion e (lowerCall e e.definitions.length) := by
  intro t s target
  refine lowerCall_eq_expandCall ?_ s target
  calc t.room e ≤ e.groups.card := Finset.card_le_card Finset.sdiff_subset
    _ ≤ (e.definitions.map (·.number)).length := List.toFinset_card_le _
    _ = e.definitions.length := List.length_map _

/-- **Lowering ends, however groups call each other.** No run goes on without end. The bound on the
depth of calls has no part in this: without it, the equation for calls has the same solution. Where
copies are nested, no group is copied twice, so they are nested at most as deep as there are capture
groups. -/
theorem calls_end (o : LowerOptions) (p : Source.Pattern) :
    WellFounded (fun y x => Place.Leads (.of o p) x y) ∧
    (∀ call, IsExpansion (.of o p) call ↔
      call = lowerCall (.of o p) (Lowering.of o p).definitions.length) ∧
    ∀ inlined y, (Place.stripped o p).Visits (.of o p) inlined y →
      inlined.Nodup ∧ inlined.length ≤ (p.root.captures.map (·.1)).toFinset.card := by
  refine ⟨Place.wellFounded_leads _, fun call => ⟨fun h => ?_, ?_⟩, fun inlined y hy => ?_⟩
  · exact h.eq (isExpansion_lowerCall _)
  · rintro rfl
    exact isExpansion_lowerCall _
  · obtain ⟨rfl, hsound⟩ := hy.sound rfl
    rw [← groups_of o p]
    exact ⟨hsound.nodup, hsound.length_le⟩

/-- Three groups that call each other in a circle. From the first, lowering leads into copies of the
other two. -/
theorem calls_end_circle : ∃ p y, p.root = .sequence [
      .group (.capture 1 none) (.subroutine 0 (.number 2) 2),
      .group (.capture 2 none) (.subroutine 1 (.number 3) 3),
      .group (.capture 3 none) (.subroutine 2 (.number 1) 1)] ∧
    (Place.stripped {} p).Visits (.of {} p) [3, 2] y ∧ y.node = .subroutine 2 (.number 1) 1 ∧
    [3, 2].length ≤ (p.root.captures.map (·.1)).toFinset.card := by
  let p : Source.Pattern := ⟨.sequence [
      .group (.capture 1 none) (.subroutine 0 (.number 2) 2),
      .group (.capture 2 none) (.subroutine 1 (.number 3) 3),
      .group (.capture 3 none) (.subroutine 2 (.number 1) 1)], {}, {}⟩
  have hgroup : (Place.stripped {} p).Visits (.of {} p) []
      ⟨⟨[1], []⟩, ⟨false, false, false, false⟩, .subroutine 0 (.number 2) 2⟩ :=
    .down (.down (z := ⟨{}, ⟨false, false, false, false⟩, .group (.capture 1 none) _⟩) .refl
      ⟨rfl, rfl, .sequence List.mem_cons_self⟩) ⟨rfl, rfl, .group (.capture 1 none) _⟩
  have hsecond : Place.Copies (.of {} p) 2
      ⟨⟨[1], []⟩, ⟨false, false, false, false⟩, .subroutine 0 (.number 2) 2⟩ _ :=
    .call (d := ⟨2, none, .subroutine 1 (.number 3) 3, ⟨false, false, true, false⟩⟩)
      (by decide) (by decide) (by decide) rfl
  have hthird : Place.Copies (.of {} p) 3
      ⟨⟨[2, 1], [2]⟩, ⟨false, false, false, true⟩, .subroutine 1 (.number 3) 3⟩ _ :=
    .call (d := ⟨3, none, .subroutine 2 (.number 1) 1, ⟨false, false, true, false⟩⟩)
      (by decide) (by decide) (by decide) rfl
  have hvisits := (hgroup.copy hsecond).copy hthird
  exact ⟨p, _, rfl, hvisits, rfl, ((calls_end {} p).2.2 _ _ hvisits).2⟩

end Diglot.Core
