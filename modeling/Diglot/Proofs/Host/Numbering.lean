import Diglot.Proofs.Host.Reading
import Diglot.Proofs.Host.Unfolding

/-!
# Captures of trees that are read

A tree that is read has the captures that its tokens open, in that order and numbered from 1 on
(`captures_of_finish`).
-/

namespace Diglot.Host

namespace Node

theorem length_numbers (n : Node) : n.numbers.length = n.captures.length := List.length_map _

theorem captures_ofSet (s : CharSet) : (ofSet s).captures = [] := by
  unfold ofSet
  dsimp only
  rw [captures_ofAlternatives, List.flatMap_eq_nil_iff]
  intro n hn
  simp only [List.mem_append, List.mem_map, List.mem_singleton] at hn
  rcases hn with (⟨_, _, rfl⟩ | rfl) | ⟨_, _, rfl⟩ <;> rfl

end Node

namespace OpenGroup

/-- The group itself, if it captures. -/
def own (o : OpenGroup) : List (Nat × Option (List Char)) :=
  match o.opener with
  | .capture name => [(o.number, name)]
  | _ => []

/-- The captures in the group, from its opening on. -/
def captures (o : OpenGroup) : List (Nat × Option (List Char)) :=
  o.own ++ o.body.captures

theorem captures_body (o : OpenGroup) : o.body.captures = o.alternatives.reverse.flatMap (·.captures)
    ++ o.items.reverse.flatMap (·.node.captures) := by
  rw [body, Node.captures_ofAlternatives, List.reverse_cons, List.flatMap_append,
    List.flatMap_singleton, current, Node.captures_ofSequence, List.flatMap_map]

theorem captures_push (o : OpenGroup) (i : Item) :
    (o.push i).captures = o.captures ++ i.node.captures := by
  rw [captures, captures, captures_body, captures_body, List.append_assoc, List.append_assoc]
  show o.own ++ (_ ++ (i :: o.items).reverse.flatMap (·.node.captures)) = _
  rw [List.reverse_cons, List.flatMap_append, List.flatMap_singleton]
  rfl

theorem captures_close (g : Grammar) (o : OpenGroup) : (o.close g).node.captures = o.captures := by
  unfold close captures own
  split <;> simp_all [Node.captures]

end OpenGroup

/-- Captures with the names, numbered from 1 on. -/
def numberedNames (names : List (Option (List Char))) : List (Nat × Option (List Char)) :=
  (names.zipIdx 1).map Prod.swap

theorem numberedNames_concat (names : List (Option (List Char))) (name : Option (List Char)) :
    numberedNames (names ++ [name]) = numberedNames names ++ [(names.length + 1, name)] := by
  simp [numberedNames, List.zipIdx_append, Nat.add_comm]

namespace Reading

/-- All captures that have been opened, in their order. -/
def captures (r : Reading) : List (Nat × Option (List Char)) :=
  r.outer.reverse.flatMap (·.captures) ++ r.group.captures

/-- Captures with the names `opened` have been opened, and the outermost group is the whole
pattern. -/
structure Numbered (r : Reading) (opened : List (Option (List Char))) : Prop where
  captures : r.captures = numberedNames opened
  count : r.opened = opened.length
  outermost : (r.outer.getLast?.getD r.group).opener = .plain

variable {g : Grammar} {names opened : List (Option (List Char))} {r r' : Reading}

/-- Only the innermost group has changed, and there are no other captures in it. -/
theorem Numbered.inside (h : r.Numbered opened) (houter : r'.outer = r.outer)
    (hopened : r'.opened = r.opened) (hopener : r'.group.opener = r.group.opener)
    (hcaptures : r'.group.captures = r.group.captures) : r'.Numbered opened where
  captures := by
    rw [Reading.captures, houter, hcaptures]
    exact h.captures
  count := hopened.trans h.count
  outermost := by
    have hlast := h.outermost
    rw [houter]
    cases hl : r.outer.getLast? with
    | none =>
      rw [hl] at hlast
      exact hopener.trans hlast
    | some o =>
      rw [hl] at hlast
      exact hlast

theorem Numbered.push (h : r.Numbered opened) {i : Item} (hi : i.node.captures = []) :
    (r.push i).Numbered opened :=
  h.inside rfl rfl rfl ((OpenGroup.captures_push ..).trans (by rw [hi, List.append_nil]))

/-- A group opens inside the others. -/
theorem Numbered.open (h : r.Numbered opened) {o : OpenGroup} {opened' : List (Option (List Char))}
    (hcaptures : numberedNames opened ++ o.captures = numberedNames opened') {count : Nat}
    (hcount : count = opened'.length) :
    ({ r with opened := count, group := o, outer := r.group :: r.outer } : Reading).Numbered
      opened' where
  captures := by
    rw [← hcaptures, ← h.captures]
    simp [Reading.captures, List.flatMap_append]
  count := hcount
  outermost := by
    have hlast := h.outermost
    rw [List.getLast?_cons]
    exact hlast

theorem Numbered.close (h : r.Numbered opened) {o : OpenGroup} {os : List OpenGroup}
    (houter : r.outer = o :: os) :
    ({ r with group := o.push (r.group.close g), outer := os } : Reading).Numbered opened where
  captures := by
    rw [← h.captures, Reading.captures, Reading.captures, houter, OpenGroup.captures_push,
      OpenGroup.captures_close]
    simp [List.flatMap_append]
  count := h.count
  outermost := by
    have hlast := h.outermost
    rw [houter, List.getLast?_cons] at hlast
    cases hl : os.getLast? with
    | none =>
      rw [hl] at hlast
      exact hlast
    | some x =>
      rw [hl] at hlast
      exact hlast

/-- The names of the captures after one more token. -/
def namesAfter (opened : List (Option (List Char))) (t : Token) : List (Option (List Char)) :=
  match t.captureName? with
  | some name => opened ++ [name]
  | none => opened

theorem Numbered.plainStep (h : r.Numbered opened) {t : Token}
    (hs : r.plainStep g names t = some r') : r'.Numbered (namesAfter opened t) := by
  cases t with
  | code n | any | edge e =>
    cases hs
    exact h.push rfl
  | set s =>
    cases hs
    exact h.push (Node.captures_ofSet s)
  | numbered n =>
    rw [Reading.plainStep] at hs
    split at hs <;> cases hs
    exact h.push rfl
  | named s =>
    rw [Reading.plainStep] at hs
    dsimp only at hs
    split at hs <;> cases hs
    exact h.push rfl
  | groupOpen o =>
    cases o with
    | capture name =>
      cases hs
      refine h.open ?_ (by simp [namesAfter, Token.captureName?, h.count])
      rw [namesAfter, Token.captureName?, numberedNames_concat, h.count]
      rfl
    | plain | atomic | look | modified =>
      cases hs
      exact h.open (List.append_nil _) h.count
  | groupClose =>
    rw [Reading.plainStep] at hs
    split at hs
    next => cases hs
    next o os houter =>
      cases hs
      exact h.close houter
  | bar =>
    cases hs
    refine h.inside rfl rfl rfl ?_
    rw [OpenGroup.captures, OpenGroup.captures, OpenGroup.captures_body, OpenGroup.captures_body]
    simp [OpenGroup.current, OpenGroup.own, Node.captures_ofSequence, List.flatMap_append,
      List.flatMap_map, -List.map_reverse]
  | quantifier min max isLazy =>
    obtain ⟨node, items, hitems, rfl⟩ := exists_of_plainStep_quantifier hs
    refine h.inside rfl rfl rfl ?_
    rw [OpenGroup.captures, OpenGroup.captures, OpenGroup.captures_body, OpenGroup.captures_body, hitems]
    simp [OpenGroup.own, List.flatMap_append, Node.captures]
  | classOpen negated =>
    cases hs
    exact h.inside rfl rfl rfl rfl
  | classClose | hyphen | difference | intersection => cases hs

theorem Numbered.classStep (h : r.Numbered opened) {c : OpenClass} {cs : List OpenClass} {t : Token}
    (hs : r.classStep g c cs t = some r') : r'.Numbered (namesAfter opened t) := by
  obtain ⟨hname, hcases⟩ := classStep_cases hs
  rw [namesAfter, hname]
  obtain ⟨classes, -, hall⟩ | ⟨content, rfl, rfl, hall⟩ := hcases
  · rw [hall] at hs
    cases hs
    exact h.inside rfl rfl rfl rfl
  · rw [hall] at hs
    cases hs
    refine (h.push ?_).inside rfl rfl rfl rfl
    split
    · rfl
    · exact Node.captures_ofSet content

theorem Numbered.step (h : r.Numbered opened) {t : Token} (hs : r.step g names t = some r') :
    r'.Numbered (namesAfter opened t) := by
  unfold Reading.step at hs
  split at hs
  · exact h.plainStep hs
  · exact h.classStep hs

/-- Every token keeps captures numbered from 1 on. -/
theorem Numbered.foldlM {ts : List Token} (h : r.Numbered opened)
    (hs : ts.foldlM (Reading.step g names) r = some r') : r'.Numbered (opened ++ captureNames ts) := by
  induction ts generalizing r opened with
  | nil =>
    cases hs
    simpa [captureNames] using h
  | cons t ts ih =>
    rw [List.foldlM_cons] at hs
    obtain ⟨u, hu, hs⟩ := Option.bind_eq_some_iff.1 hs
    have hlast := ih (h.step hu) hs
    unfold namesAfter at hlast
    cases ht : t.captureName? <;> simpa [captureNames, ht] using hlast

theorem numbered_start : ({} : Reading).Numbered [] :=
  ⟨rfl, rfl, rfl⟩

end Reading

/-- **The captures of a tree that is read are those that its tokens open, numbered from 1 on.** -/
theorem captures_of_finish {g : Grammar} {names : List (Option (List Char))} {ts : List Token}
    {r : Reading} {root : Node} (hr : ts.foldlM (Reading.step g names) {} = some r)
    (hroot : r.finish = some root) : root.captures = numberedNames (captureNames ts) := by
  have hnumbered := Reading.numbered_start.foldlM hr
  obtain ⟨-, houter, rfl⟩ := Reading.of_finish hroot
  have hcaptures := hnumbered.captures
  have hplain := hnumbered.outermost
  rw [houter] at hplain
  rw [Reading.captures, houter, OpenGroup.captures, OpenGroup.own,
    show r.group.opener = .plain from hplain] at hcaptures
  simpa using hcaptures

theorem numbers_of_finish {g : Grammar} {names : List (Option (List Char))} {ts : List Token}
    {r : Reading} {root : Node} (hr : ts.foldlM (Reading.step g names) {} = some r)
    (hroot : r.finish = some root) : root.numbers = List.range' 1 (captureNames ts).length := by
  rw [Node.numbers, captures_of_finish hr hroot, numberedNames, List.map_map]
  exact List.zipIdx_map_snd 1 _

end Diglot.Host
