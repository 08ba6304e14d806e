import Diglot.Proofs.Host.Balanced
import Diglot.Proofs.Host.Numbering
import Mathlib.Data.List.Forall2

/-!
# Reading unfolded patterns

A pattern with atomic groups and the pattern with these unfolded are read side by side. At every
point the groups that are open correspond (`Frames`): where the one has an atomic group open, the
other has a group, a look ahead and a capture. A token that stands in both keeps them so
(`Follows.ordinary`), and so do the brackets of groups (`Follows.closeAtomic` and the like).
-/

namespace Diglot.Host

variable {f : Renumbering} {ns ns' : List Node} {n' root : Node} {i i' : Item} {n : Nat}
  {t : Token} {g : Grammar} {extended : Bool} {text : List Char}

/-! ## Items and contents of groups -/

namespace Unfolded

theorem ofSequence (h : List.Forall₂ (Unfolded f) ns ns') :
    Unfolded f (.ofSequence ns) (.ofSequence ns') := by
  induction h with
  | nil => exact .leaf rfl
  | cons h hs ih =>
    cases hs with
    | nil => exact h
    | cons => exact .sequence h ih

theorem ofAlternatives (h : List.Forall₂ (Unfolded f) ns ns') :
    Unfolded f (.ofAlternatives ns) (.ofAlternatives ns') := by
  induction h with
  | nil => exact .leaf rfl
  | cons h hs ih =>
    cases hs with
    | nil => exact h
    | cons => exact .alternation h ih

/-- A set has no parts to be unfolded. -/
theorem ofSet (s : CharSet) : Unfolded f (.ofSet s) (.ofSet s) := by
  have hmember : ∀ texts : List Unicode.CodeText,
      List.Forall₂ (Unfolded f) (texts.map (.member · s)) (texts.map (.member · s)) := by
    intro texts
    rw [List.forall₂_same]
    intro n hn
    obtain ⟨t, -, rfl⟩ := List.mem_map.1 hn
    exact .leaf rfl
  exact ofAlternatives (List.rel_append (List.rel_append (hmember _) (.cons (.leaf rfl) .nil)) (hmember _))

/-- The captures that were added have no names. -/
theorem names_eq {n : Node} (h : Unfolded f n n') : n'.names = n.names := by
  induction h with
  | leaf h => rfl
  | backreference h => rfl
  | @capture k name n n' h hbody ih =>
    cases name with
    | none => exact ih
    | some name => exact congrArg (name :: ·) ih
  | atomic h hbody ih => simpa [Node.unfoldedAtomic, Node.names, Node.captures] using ih
  | modified hbody ih | look hbody ih | repeated hbody ih => exact ih
  | sequence ha hb iha ihb | alternation ha hb iha ihb =>
    simp only [Node.names, Node.captures, List.filterMap_append] at iha ihb ⊢
    rw [iha, ihb]

theorem hasDistinctNames_eq {n : Node} (h : Unfolded f n n') :
    n'.hasDistinctNames = n.hasDistinctNames := by
  induction h with
  | leaf h => rfl
  | backreference h => rfl
  | capture h hbody ih => rw [Node.hasDistinctNames, Node.hasDistinctNames, ih, hbody.names_eq]
  | @atomic i n n' h hbody ih =>
    -- A reference has no names that could stand in the look ahead too.
    have hnone : ∀ names : List (List Char),
        names.all (!(Node.backreference [i]).names.contains ·) = true :=
      fun names => List.all_eq_true.2 fun _ _ => rfl
    simp only [Node.unfoldedAtomic, Node.hasDistinctNames, hnone, Option.all_none, Bool.and_true]
    exact ih
  | modified hbody ih | look hbody ih | repeated hbody ih => exact ih
  | sequence ha hb iha ihb =>
    rw [Node.hasDistinctNames, Node.hasDistinctNames, iha, ihb, ha.names_eq, hb.names_eq]
  | alternation ha hb iha ihb => rw [Node.hasDistinctNames, Node.hasDistinctNames, iha, ihb]

end Unfolded

/-- Two items of sequences, the second with its atomic groups unfolded. -/
structure SameItem (f : Renumbering) (i i' : Item) : Prop where
  node : Unfolded f i.node i'.node
  repeatable : i'.repeatable = i.repeatable

/-- Two open groups have the same in them, the second with atomic groups unfolded. -/
structure SameContent (f : Renumbering) (o o' : OpenGroup) : Prop where
  alternatives : List.Forall₂ (Unfolded f) o.alternatives o'.alternatives
  items : List.Forall₂ (SameItem f) o.items o'.items

namespace SameContent

variable {o o' : OpenGroup}

theorem push (h : SameContent f o o') (hi : SameItem f i i') :
    SameContent f (o.push i) (o'.push i') where
  alternatives := h.alternatives
  items := .cons hi h.items

theorem current (h : SameContent f o o') : Unfolded f o.current o'.current := by
  refine .ofSequence ?_
  rw [List.forall₂_map_left_iff, List.forall₂_map_right_iff]
  exact (List.forall₂_reverse_iff.2 h.items).imp fun _ _ hi => hi.node

theorem body (h : SameContent f o o') : Unfolded f o.body o'.body :=
  .ofAlternatives (List.forall₂_reverse_iff.2 (.cons h.current h.alternatives))

end SameContent

/-- Two open groups are the same, the second with what is in it unfolded. -/
structure SameGroup (f : Renumbering) (o o' : OpenGroup) : Prop where
  content : SameContent f o o'
  opener : o'.opener = o.opener
  number : ∀ name, o.opener = .capture name → f.IsOld o.number ∧ o'.number = f.new o.number
  notAtomic : o.opener ≠ .atomic

theorem SameGroup.close {o o' : OpenGroup} (h : SameGroup f o o') (g : Grammar) :
    SameItem f (o.close g) (o'.close g) := by
  have hbody := h.content.body
  unfold OpenGroup.close
  rw [h.opener]
  cases ho : o.opener with
  | capture name =>
    obtain ⟨hold, hnumber⟩ := h.number name ho
    refine ⟨?_, rfl⟩
    dsimp only
    rw [hnumber]
    exact .capture hold hbody
  | plain => exact ⟨hbody, rfl⟩
  | atomic => exact absurd ho h.notAtomic
  | look l => exact ⟨.look hbody, rfl⟩
  | modified change => exact ⟨.modified hbody, rfl⟩

/-! ## Open groups -/

/-- The groups that are open, from the inside out. An atomic group that has got the capture
`added n` stands in the place of `some n` in `stack`. -/
inductive Frames (f : Renumbering) (added : Nat → Nat) :
    (stack : List (Option Nat)) → (os os' : List OpenGroup) → Prop where
  | base {o o' : OpenGroup} (h : SameGroup f o o') : Frames f added [] [o] [o']
  | plain {stack : List (Option Nat)} {o o' : OpenGroup} {os os' : List OpenGroup}
    (h : SameGroup f o o') (hs : Frames f added stack os os') :
    Frames f added (none :: stack) (o :: os) (o' :: os')
  | atomic {n : Nat} {stack : List (Option Nat)} {o o' : OpenGroup} {os os' : List OpenGroup}
    (h : SameContent f o o') (ho : o.opener = .atomic) (ho' : o'.opener = .capture none)
    (hn : o'.number = added n) (ha : f.IsAdded (added n)) (hs : Frames f added stack os os') :
    Frames f added (some n :: stack) (o :: os)
      (o' :: { opener := .look ⟨false, false⟩ } :: { opener := .plain } :: os')

namespace Frames

variable {added : Nat → Nat} {stack : List (Option Nat)} {o o' p p' : OpenGroup}
  {os os' : List OpenGroup}

theorem content (h : Frames f added stack (o :: os) (o' :: os')) : SameContent f o o' := by
  cases h with
  | base h | plain h hs => exact h.content
  | atomic h ho ho' hn ha hs => exact h

/-- Only what is in the innermost group changes. -/
theorem update (h : Frames f added stack (o :: os) (o' :: os')) (hp : SameContent f p p')
    (ho : p.opener = o.opener) (hn : p.number = o.number) (ho' : p'.opener = o'.opener)
    (hn' : p'.number = o'.number) : Frames f added stack (p :: os) (p' :: os') := by
  have hsame : SameGroup f o o' → SameGroup f p p' := fun h => {
    content := hp
    opener := by rw [ho, ho', h.opener]
    number := fun name hname => by
      rw [hn, hn']
      exact h.number name (ho ▸ hname)
    notAtomic := ho ▸ h.notAtomic }
  cases h with
  | base h => exact .base (hsame h)
  | plain h hs => exact .plain (hsame h) hs
  | atomic h hopener hopener' hnumber ha hs =>
    exact .atomic hp (ho.trans hopener) (ho'.trans hopener') (hn'.trans hnumber) ha hs

theorem push (h : Frames f added stack (o :: os) (o' :: os')) (hi : SameItem f i i') :
    Frames f added stack (o.push i :: os) (o'.push i' :: os') :=
  h.update (h.content.push hi) rfl rfl rfl rfl

/-- Some group is always open. -/
theorem exists_cons (h : Frames f added stack os os') :
    ∃ o ps o' ps', os = o :: ps ∧ os' = o' :: ps' := by
  cases h <;> exact ⟨_, _, _, _, rfl, rfl⟩

theorem of_nil (h : Frames f added [] (o :: os) (o' :: os')) : os = [] ∧ os' = [] := by
  cases h with
  | base h => exact ⟨rfl, rfl⟩

theorem of_none (h : Frames f added (none :: stack) (o :: os) (o' :: os')) :
    SameGroup f o o' ∧ Frames f added stack os os' := by
  cases h with
  | plain h hs => exact ⟨h, hs⟩

theorem of_some (h : Frames f added (some n :: stack) (o :: os) (o' :: os')) :
    ∃ ps', os' = { opener := .look ⟨false, false⟩ } :: { opener := .plain } :: ps' ∧
      SameContent f o o' ∧ o.opener = .atomic ∧ o'.opener = .capture none ∧ o'.number = added n ∧
      f.IsAdded (added n) ∧ Frames f added stack os ps' := by
  cases h with
  | atomic h ho ho' hn ha hs => exact ⟨_, rfl, h, ho, ho', hn, ha, hs⟩

end Frames

/-! ## Readings -/

/-- Two readings have come to the same point. -/
structure Follows (f : Renumbering) (added : Nat → Nat) (stack : List (Option Nat))
    (r r' : Reading) : Prop where
  classes : r'.classes = r.classes
  frames : Frames f added stack (r.group :: r.outer) (r'.group :: r'.outer)

/-- The numbers of the captures with a name, if the first of all has the number `start`. -/
def numbersNamed (s : List Char) (names : List (Option (List Char))) (start : Nat := 1) : List Nat :=
  (names.zipIdx start).filterMap fun p => if p.1 = some s then some p.2 else none

theorem numbersNamed_cons (s : List Char) (name : Option (List Char))
    (names : List (Option (List Char))) (start : Nat) : numbersNamed s (name :: names) start
      = (if name = some s then [start] else []) ++ numbersNamed s names (start + 1) := by
  rw [numbersNamed, List.zipIdx_cons, List.filterMap_cons]
  by_cases hname : name = some s
  · simp only [if_pos hname]
    rfl
  · simp only [if_neg hname]
    rfl

theorem mem_numbersNamed {names : List (Option (List Char))} {s : List Char}
    (h : n ∈ numbersNamed s names) : 0 < n ∧ n ≤ names.length := by
  obtain ⟨p, hp, hn⟩ := List.mem_filterMap.1 h
  split at hn
  · cases hn
    have hrange := List.mem_zipIdx hp
    omega
  · cases hn

theorem plainStep_named (g : Grammar) (names : List (Option (List Char))) (r : Reading)
    (s : List Char) : r.plainStep g names (.named s) = if (numbersNamed s names).isEmpty then none
      else some (r.push ⟨.backreference (numbersNamed s names), true⟩) := rfl

/-- The captures of two patterns have the same names, but for those that were added. -/
structure SameNames (f : Renumbering) (names names' : List (Option (List Char))) : Prop where
  count : names.length = f.count
  total : names'.length = f.total
  named : ∀ s, numbersNamed s names' = (numbersNamed s names).map f.new

namespace Follows

variable {added : Nat → Nat} {stack : List (Option Nat)} {r r' s : Reading}
  {names names' : List (Option (List Char))}

section

variable (h : Follows f added stack r r')

include h

theorem push (hi : SameItem f i i') :
    Follows f added stack (r.push i) (r'.push i') where
  classes := h.classes
  frames := h.frames.push hi

theorem named (hn : SameNames f names names') {name : List Char}
    (hs : r.plainStep g names (.named name) = some s) :
    ∃ s', r'.plainStep g names' (.named name) = some s' ∧ Follows f added stack s s' ∧
      s.opened = r.opened ∧ s'.opened = r'.opened := by
  rw [plainStep_named] at hs
  split at hs
  · cases hs
  next hne =>
    cases hs
    have hold : ∀ k ∈ numbersNamed name names, f.IsOld k := by
      intro k hk
      rw [Renumbering.IsOld, ← hn.count]
      exact mem_numbersNamed hk
    have hstep : r'.plainStep g names' (.named name) = some
        (r'.push ⟨.backreference ((numbersNamed name names).map f.new), true⟩) := by
      rw [plainStep_named, hn.named, if_neg (by simpa using hne)]
    exact ⟨_, hstep, h.push ⟨.backreference hold, rfl⟩, rfl, rfl⟩

/-- What stands before a bar becomes an alternative. -/
theorem bar (hs : r.plainStep g names .bar = some s) :
    ∃ s', r'.plainStep g names' .bar = some s' ∧ Follows f added stack s s' ∧
      s.opened = r.opened ∧ s'.opened = r'.opened := by
  cases hs
  have hcontent := h.frames.content
  refine ⟨_, rfl, ⟨h.classes, h.frames.update ?_ rfl rfl rfl rfl⟩, rfl, rfl⟩
  exact ⟨.cons hcontent.current hcontent.alternatives, .nil⟩

theorem quantifier {min : Nat} {max : Option Nat} {isLazy : Bool}
    (hs : r.plainStep g names (.quantifier min max isLazy) = some s) :
    ∃ s', r'.plainStep g names' (.quantifier min max isLazy) = some s' ∧ Follows f added stack s s' ∧
      s.opened = r.opened ∧ s'.opened = r'.opened := by
  have hcontent := h.frames.content
  have hitems := hcontent.items
  obtain ⟨node, items, heq, rfl⟩ := Reading.exists_of_plainStep_quantifier hs
  rw [heq] at hitems
  obtain ⟨⟨node', repeatable'⟩, items', hi, hrest, heq'⟩ := List.forall₂_cons_left_iff.1 hitems
  obtain ⟨hnode, hrepeatable⟩ := hi
  cases hrepeatable
  have hstep : r'.plainStep g names' (.quantifier min max isLazy) = some { r' with group :=
      { r'.group with items := ⟨.repeated min max isLazy node', false⟩ :: items' } } := by
    rw [Reading.plainStep, heq']
  refine ⟨_, hstep, ⟨h.classes, h.frames.update ?_ rfl rfl rfl rfl⟩, rfl, rfl⟩
  exact ⟨hcontent.alternatives, .cons ⟨.repeated hnode, rfl⟩ hrest⟩

theorem classStep {c : OpenClass} {cs : List OpenClass} (hs : r.classStep g c cs t = some s) :
    ∃ s', r'.classStep g c cs t = some s' ∧ Follows f added stack s s' ∧
      s.opened = r.opened ∧ s'.opened = r'.opened := by
  obtain ⟨-, ⟨classes, -, hall⟩ | ⟨content, rfl, rfl, hall⟩⟩ := Reading.classStep_cases hs
  · rw [hall] at hs
    cases hs
    exact ⟨_, hall r', ⟨rfl, h.frames⟩, rfl, rfl⟩
  · rw [hall] at hs
    cases hs
    refine ⟨_, hall r', ⟨rfl, h.frames.push ⟨?_, rfl⟩⟩, rfl, rfl⟩
    split
    · exact .leaf rfl
    · exact .ofSet content

/-- A token that is neither a bracket of a group nor a numbered reference stands in both patterns. -/
theorem ordinary (hn : SameNames f names names') (ht : t.isOrdinary)
    (hs : r.step g names t = some s) :
    ∃ s', r'.step g names' t = some s' ∧ Follows f added stack s s' ∧
      s.opened = r.opened ∧ s'.opened = r'.opened := by
  unfold Reading.step at hs ⊢
  rw [h.classes]
  cases hclasses : r.classes with
  | cons c cs =>
    rw [hclasses] at hs
    exact h.classStep hs
  | nil =>
    rw [hclasses] at hs
    cases t with
    | code n | any | edge e =>
      cases hs
      exact ⟨_, rfl, h.push ⟨.leaf rfl, rfl⟩, rfl, rfl⟩
    | set s =>
      cases hs
      exact ⟨_, rfl, h.push ⟨.ofSet s, rfl⟩, rfl, rfl⟩
    | named s => exact h.named hn hs
    | bar => exact h.bar hs
    | quantifier => exact h.quantifier hs
    | classOpen negated =>
      cases hs
      exact ⟨_, rfl, ⟨rfl, h.frames⟩, rfl, rfl⟩
    | groupOpen | groupClose | numbered => cases ht
    | classClose | hyphen | difference | intersection => cases hs

/-! ### Brackets of groups -/

/-- The brackets of groups and references stand outside classes, in both patterns. -/
theorem outside (ht : t.isOrdinary = false) (hs : r.step g names t = some s) :
    r.classes = [] ∧ r'.classes = [] ∧ r.plainStep g names t = some s := by
  have hnil := Reading.classes_eq_nil (.inl ht) hs
  rw [Reading.step_of_classes_eq_nil hnil] at hs
  exact ⟨hnil, h.classes.trans hnil, hs⟩

theorem opens {o : Opener} (ha : o ≠ .atomic) (hc : ∀ name, o ≠ .capture name)
    (hs : r.step g names (.groupOpen o) = some s) :
    ∃ s', r'.step g names' (.groupOpen o) = some s' ∧ Follows f added (none :: stack) s s' ∧
      s.opened = r.opened ∧ s'.opened = r'.opened := by
  obtain ⟨-, hnil', hs⟩ := h.outside rfl hs
  rw [Reading.step_of_classes_eq_nil hnil']
  have hsame : SameGroup f { opener := o } { opener := o } :=
    ⟨⟨.nil, .nil⟩, rfl, fun name hname => absurd hname (hc name), ha⟩
  cases o with
  | capture name => exact absurd rfl (hc name)
  | plain | atomic | look | modified =>
    cases hs
    exact ⟨_, rfl, ⟨h.classes, .plain hsame h.frames⟩, rfl, rfl⟩

theorem captures {name : Option (List Char)}
    (hs : r.step g names (.groupOpen (.capture name)) = some s) (hold : f.IsOld (r.opened + 1))
    (hnew : r'.opened + 1 = f.new (r.opened + 1)) :
    ∃ s', r'.step g names' (.groupOpen (.capture name)) = some s' ∧
      Follows f added (none :: stack) s s' ∧ s.opened = r.opened + 1 ∧ s'.opened = r'.opened + 1 := by
  obtain ⟨-, hnil', hs⟩ := h.outside rfl hs
  rw [Reading.step_of_classes_eq_nil hnil']
  cases hs
  have hsame : SameGroup f { opener := .capture name, number := r.opened + 1 }
      { opener := .capture name, number := r'.opened + 1 } :=
    ⟨⟨.nil, .nil⟩, rfl, fun _ _ => ⟨hold, hnew⟩, by simp⟩
  exact ⟨_, rfl, ⟨h.classes, .plain hsame h.frames⟩, rfl, rfl⟩

/-- Where the one pattern opens an atomic group, the other opens three groups. -/
theorem atomic (hs : r.step g names (.groupOpen .atomic) = some s) (ha : f.IsAdded (added n))
    (hn : r'.opened + 1 = added n) :
    ∃ s', [Token.groupOpen .plain, .groupOpen (.look ⟨false, false⟩),
        .groupOpen (.capture none)].foldlM (Reading.step g names') r' = some s' ∧
      Follows f added (some n :: stack) s s' ∧ s.opened = r.opened ∧ s'.opened = r'.opened + 1 := by
  obtain ⟨-, hnil', hs⟩ := h.outside rfl hs
  cases hs
  let s' : Reading := {
    opened := r'.opened + 1
    classes := r'.classes
    group := { opener := .capture none, number := r'.opened + 1 }
    outer := { opener := .look ⟨false, false⟩ } :: { opener := .plain } :: r'.group :: r'.outer }
  have hsteps : [Token.groupOpen .plain, .groupOpen (.look ⟨false, false⟩),
      .groupOpen (.capture none)].foldlM (Reading.step g names') r' = some s' := by
    simp only [List.foldlM_cons, List.foldlM_nil, Reading.step, Reading.plainStep, hnil', s']
    rfl
  exact ⟨s', hsteps, ⟨h.classes, .atomic ⟨.nil, .nil⟩ rfl rfl hn ha h.frames⟩, rfl, rfl⟩

theorem refers (hn : SameNames f names names') {k : Nat} (hk : 0 < k)
    (hs : r.step g names (.numbered k) = some s) :
    ∃ s', r'.step g names' (.numbered (f.new k)) = some s' ∧ Follows f added stack s s' ∧
      s.opened = r.opened ∧ s'.opened = r'.opened := by
  obtain ⟨-, hnil', hs⟩ := h.outside rfl hs
  rw [Reading.plainStep] at hs
  split at hs
  next hle =>
    cases hs
    rw [hn.count] at hle
    have hold : ∀ j ∈ [k], f.IsOld j := by
      simpa using ⟨hk, hle⟩
    have hstep : r'.step g names' (.numbered (f.new k)) =
        some (r'.push ⟨.backreference ([k].map f.new), true⟩) := by
      rw [Reading.step_of_classes_eq_nil hnil', Reading.plainStep, hn.total, if_pos (f.bounds k hk hle).2]
      rfl
    exact ⟨_, hstep, h.push ⟨.backreference hold, rfl⟩, rfl, rfl⟩
  next => cases hs

end

theorem closes (h : Follows f added (none :: stack) r r')
    (hs : r.step g names .groupClose = some s) :
    ∃ s', r'.step g names' .groupClose = some s' ∧ Follows f added stack s s' ∧
      s.opened = r.opened ∧ s'.opened = r'.opened := by
  obtain ⟨hnil, hnil', -⟩ := h.outside rfl hs
  obtain ⟨hsame, hframes⟩ := h.frames.of_none
  obtain ⟨o, os, o', os', ho, ho'⟩ := hframes.exists_cons
  rw [ho, ho'] at hframes
  rw [Reading.step_groupClose hnil ho] at hs
  rw [Reading.step_groupClose hnil' ho']
  cases hs
  exact ⟨_, rfl, ⟨h.classes, hframes.push (hsame.close g)⟩, rfl, rfl⟩

/-- Where the one pattern closes an atomic group, the other closes the capture and the look ahead,
refers to the capture and closes the group around them. -/
theorem closesAtomic (h : Follows f added (some n :: stack) r r') (hn : names'.length = f.total)
    (hs : r.step g names .groupClose = some s) :
    ∃ s', [Token.groupClose, .groupClose, .numbered (added n), .groupClose].foldlM
        (Reading.step g names') r' = some s' ∧
      Follows f added stack s s' ∧ s.opened = r.opened ∧ s'.opened = r'.opened := by
  obtain ⟨hnil, hnil', -⟩ := h.outside rfl hs
  obtain ⟨ps', hps, hcontent, hatomic, hcapture, hnumber, hadded, hframes⟩ := h.frames.of_some
  obtain ⟨o, os, o', os', ho, ho'⟩ := hframes.exists_cons
  rw [ho'] at hps
  rw [ho, ho'] at hframes
  rw [Reading.step_groupClose hnil ho] at hs
  cases hs
  have hitem : SameItem f (r.group.close g) ⟨.unfoldedAtomic (added n) r'.group.body, true⟩ := by
    rw [OpenGroup.close, hatomic]
    exact ⟨.atomic hadded hcontent.body, rfl⟩
  have hcaptured : r'.group.close g = ⟨.capture (added n) none r'.group.body, true⟩ := by
    rw [OpenGroup.close, hcapture, hnumber]
  let s' : Reading :=
    { r' with group := o'.push ⟨.unfoldedAtomic (added n) r'.group.body, true⟩, outer := os' }
  have hsteps : [Token.groupClose, .groupClose, .numbered (added n), .groupClose].foldlM
      (Reading.step g names') r' = some s' := by
    have hle : added n ≤ names'.length := hn ▸ hadded.2.1
    rw [List.foldlM_cons, Reading.step_groupClose hnil' hps, hcaptured, Option.bind_eq_bind, Option.bind_some,
      List.foldlM_cons, Reading.step_groupClose (by exact hnil') rfl, Option.bind_eq_bind, Option.bind_some,
      List.foldlM_cons, Reading.step_of_classes_eq_nil (by exact hnil'), Reading.plainStep, if_pos hle,
      Option.bind_eq_bind, Option.bind_some, List.foldlM_cons, Reading.step_groupClose (by exact hnil') rfl]
    rfl
  exact ⟨s', hsteps, ⟨h.classes, hframes.push hitem⟩, rfl, rfl⟩

theorem finish (h : Follows f added [] r r') (hroot : r.finish = some root) :
    ∃ root', r'.finish = some root' ∧ Unfolded f root root' := by
  unfold Reading.finish at hroot ⊢
  split at hroot
  next hend =>
    cases hroot
    have hbody := h.frames.content.body
    have houter' : r'.outer = [] := h.frames.of_nil.2
    refine ⟨_, if_pos ?_, hbody⟩
    simp only [Bool.and_eq_true] at hend ⊢
    rw [h.classes, houter', hbody.hasDistinctNames_eq]
    exact ⟨⟨hend.1.1, rfl⟩, hend.2⟩
  next => cases hroot

end Follows

/-! ## Whole patterns -/

theorem Dialect.suits_of? (hg : g.isStrict) {x : Dialect} (h : Dialect.of? g extended text = some x) :
    x.Suits g := by
  obtain ⟨ts, -, h⟩ := Option.bind_eq_some_iff.1 h
  cases h
  exact ⟨rfl, hg, by simp [hg]⟩

theorem exists_of_read? (hg : g.isStrict) (h : Node.read? g extended text = some root) :
    ∃ x ts r, x.Suits g ∧ tokensFrom? x 0 text = some ts ∧
      ts.foldlM (Reading.step g (captureNames ts)) {} = some r ∧ r.finish = some root := by
  obtain ⟨x, hx, h⟩ := Option.bind_eq_some_iff.1 h
  obtain ⟨ts, hts, h⟩ := Option.bind_eq_some_iff.1 h
  obtain ⟨r, hr, h⟩ := Option.bind_eq_some_iff.1 h
  exact ⟨x, ts, r, Dialect.suits_of? hg hx, hts, hr, h⟩

/-- In strict grammars it does not matter to the tokens how many captures there are. -/
theorem read?_eq_finish (hg : g.isStrict) {ts : List Token}
    (hts : ∀ x : Dialect, x.Suits g → tokensFrom? x 0 text = some ts) (extended : Bool)
    {r : Reading} (hr : ts.foldlM (Reading.step g (captureNames ts)) {} = some r) :
    Node.read? g extended text = r.finish := by
  obtain ⟨x, hx⟩ : ∃ x, Dialect.of? g extended text = some x := by
    have hfirst := hts { grammar := g, extended, named := g.isStrict, captures := 0 } ⟨rfl, hg, hg⟩
    rw [Dialect.of?, tokens?, hfirst]
    exact ⟨_, rfl⟩
  rw [Node.read?, hx]
  show (do let ts ← tokensFrom? x 0 text; _) = _
  rw [hts x (Dialect.suits_of? hg hx)]
  show (do let r : Reading ← ts.foldlM (Reading.step g (captureNames ts)) {}; r.finish) = _
  rw [hr]
  rfl

end Diglot.Host
