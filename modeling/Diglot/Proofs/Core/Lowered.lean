import Diglot.Proofs.Core.PlainClass
import Diglot.Proofs.Core.Recursions
import Diglot.Proofs.Source.Captures

/-!
# What lowering gives

The visible captures of a lowered pattern are the groups of the pattern, each once and in order; the
other captures are copies of groups. There is at most one recursion, and it goes to the whole
pattern or to a visible capture around it.

`Lowered` says this of a part of a pattern. A recursion there may also go to a group around the
part.
-/

namespace Diglot.Core

open Source (Node.captures capturesAll NameRule)
open Emitted (Plain)

variable {name : Option String} {target : Nat} {e : Lowering} {m : Node} {known : List Nat}
  {st st' : Bool} {s : Scope} {t : Trail}

/-- A recursion of a tree goes to the whole pattern, to one of the groups `ancestors`, or to a
visible capture around it. -/
def Anchored (ancestors : List Nat) (m : Node) (r : Nat × List Nat) : Prop :=
  r.1 = 0 ∨ r.1 ∈ ancestors ∨
    ∃ i ∈ r.2, ∃ h ∈ m.headings[i]?, h.number = r.1 ∧ h.hidden = false

/-- What the lowered form of a part of a pattern is like, if the part has the groups `captures` and
calls lead to the groups `known`. It is met with a recursion before it if `st` holds, and then with
one before its end if `st'` holds. -/
structure Lowered (known : List Nat) (ancestors : List Nat) (inClone : Bool)
    (captures : List (Nat × Option String)) (st st' : Bool) (m : Node) : Prop where
  plain : Plain m
  visible : (m.headings.filter (!·.hidden)).map (fun h => (h.number, h.name))
    = if inClone then [] else captures
  copies : ∀ h ∈ m.headings, h.origin = (if h.hidden then some h.number else none) ∧
    (h.hidden → h.number ∈ known)
  anchored : ∀ r ∈ m.recursions, Anchored ancestors m r
  counted : st.toNat + m.recursions.length = st'.toNat
  cloned : inClone → m.recursions = []

namespace Lowered

variable {known ancestors : List Nat} {inClone : Bool} {cs ds : List (Nat × Option String)}
  {st st' st'' : Bool} {m m' : Node} {ms ms' : List Node}

theorem of_agrees (h : Lowered known ancestors inClone cs st st' m) (ha : m.Agrees m') :
    Lowered known ancestors inClone cs st st' m' where
  plain := ha.plain h.plain
  visible := by rw [ha.headings, h.visible]
  copies := by rw [ha.headings]; exact h.copies
  anchored := by
    unfold Anchored
    rw [ha.recursions, ha.headings]
    exact h.anchored
  counted := by rw [ha.recursions, h.counted]
  cloned := by rw [ha.recursions]; exact h.cloned

/-- A tree without captures and recursions. -/
theorem quiet (known ancestors : List Nat) (inClone : Bool) (st : Bool) (hp : Plain m)
    (hh : m.headings = []) (hr : m.recursions = []) :
    Lowered known ancestors inClone [] st st m where
  plain := hp
  visible := by simp [hh]
  copies := by simp [hh]
  anchored := by simp [hr]
  counted := by simp [hr]
  cloned _ := hr

theorem append (h : Lowered known ancestors inClone cs st st' (.sequence ms))
    (h' : Lowered known ancestors inClone ds st' st'' (.sequence ms')) :
    Lowered known ancestors inClone (cs ++ ds) st st'' (.sequence (ms ++ ms')) := by
  have hheadings : (Node.sequence (ms ++ ms')).headings
      = (Node.sequence ms).headings ++ (Node.sequence ms').headings := by
    simp [Node.headingsAll_append]
  have hrecursions : (Node.sequence (ms ++ ms')).recursions = (Node.sequence ms).recursions
      ++ (Node.sequence ms').recursions.map
        fun r => (r.1, r.2.map (· + (Node.sequence ms).headings.length)) := by
    rw [Node.headings_sequence]
    exact Node.recursionsAll_append ms ms'
  refine ⟨?_, ?_, ?_, ?_, ?_, ?_⟩
  · exact Node.allPlain_append h.plain h'.plain
  · rw [hheadings, List.filter_append, List.map_append, h.visible, h'.visible]
    split <;> rfl
  · rw [hheadings]
    exact List.forall_mem_append.2 ⟨h.copies, h'.copies⟩
  · rw [hrecursions]
    unfold Anchored
    rw [hheadings]
    refine List.forall_mem_append.2 ⟨fun r hr => ?_, fun r hr => ?_⟩
    · refine (h.anchored r hr).imp_right fun ha => ha.imp_right ?_
      rintro ⟨i, hi, k, hk, hn⟩
      have hlt := (List.getElem?_eq_some_iff.1 hk).1
      exact ⟨i, hi, k, by rwa [List.getElem?_append_left hlt], hn⟩
    · obtain ⟨r', hr', rfl⟩ := List.mem_map.1 hr
      refine (h'.anchored r' hr').imp_right fun ha => ha.imp_right ?_
      rintro ⟨i, hi, k, hk, hn⟩
      refine ⟨_, List.mem_map_of_mem hi, k, ?_, hn⟩
      rwa [List.getElem?_append_right (by omega), Nat.add_sub_cancel]
  · rw [hrecursions, List.length_append, List.length_map, ← h'.counted, ← h.counted]
    omega
  · intro hc
    rw [hrecursions, h.cloned hc, h'.cloned hc]
    rfl

theorem cons (h : Lowered known ancestors inClone cs st st' m)
    (h' : Lowered known ancestors inClone ds st' st'' (.sequence ms)) :
    Lowered known ancestors inClone (cs ++ ds) st st'' (.sequence (m :: ms)) :=
  (h.of_agrees (Node.agrees_sequence_singleton m)).append h'

theorem nil (known ancestors : List Nat) (inClone : Bool) (st : Bool) :
    Lowered known ancestors inClone [] st st (.sequence []) :=
  .quiet _ _ _ _ trivial (by simp) rfl

/-- A group is a capture, which is hidden in a copy. -/
theorem capture {number : Nat} (h : Lowered known (number :: ancestors) inClone cs st st' m)
    (hname : ∀ s ∈ name, Emitted.PlainTitle s) (hknown : number ∈ known) :
    Lowered known ancestors inClone ((number, name) :: cs) st st'
      (.capture number name inClone (if inClone then some number else none) m) where
  plain := ⟨hname, h.plain⟩
  visible := by
    have hvisible := h.visible
    rw [Node.headings_capture]
    cases inClone with
    | true => simpa using hvisible
    | false => simpa using hvisible
  copies := by
    rw [Node.headings_capture]
    exact List.forall_mem_cons.2 ⟨⟨rfl, fun _ => hknown⟩, h.copies⟩
  anchored := by
    intro r hr
    rw [Node.recursions] at hr
    obtain ⟨r', hr', rfl⟩ := List.mem_map.1 hr
    rcases h.anchored r' hr' with ha | ha | ⟨i, hi, k, hk, hn⟩
    · exact .inl ha
    · rcases List.mem_cons.1 ha with ha | ha
      · -- The recursion goes to this very group, which then is no copy.
        have hclone : inClone = false := by
          rw [← Bool.not_eq_true]
          intro hc
          rw [h.cloned hc] at hr'
          cases hr'
        exact .inr (.inr ⟨0, by simp, _, by rw [Node.headings_capture]; rfl, ha.symm, hclone⟩)
      · exact .inr (.inl ha)
    · refine .inr (.inr ⟨i + 1, by simpa using hi, k, ?_, hn⟩)
      rwa [Node.headings_capture, List.getElem?_cons_succ]
  counted := by rw [Node.recursions, List.length_map, h.counted]
  cloned := by
    intro hc
    rw [Node.recursions, h.cloned hc]
    rfl

/-- A call is a hidden copy of a group. -/
theorem call {ancestors' : List Nat} (h : Lowered known ancestors' true cs st st' m)
    (hname : ∀ s ∈ name, Emitted.PlainTitle s) (hknown : target ∈ known) :
    Lowered known ancestors inClone [] st st' (.capture target name true (some target) m) where
  plain := ⟨hname, h.plain⟩
  visible := by
    have hvisible := h.visible
    rw [Node.headings_capture]
    simpa using hvisible
  copies := by
    rw [Node.headings_capture]
    exact List.forall_mem_cons.2 ⟨⟨rfl, fun _ => hknown⟩, h.copies⟩
  anchored := by simp [Node.recursions, h.cloned rfl]
  counted := by rw [Node.recursions, List.length_map, h.counted]
  cloned := by simp [Node.recursions, h.cloned rfl]

theorem recursion (h : target = 0 ∨ target ∈ ancestors) :
    Lowered known ancestors false [] false true (.recursion target) where
  plain := trivial
  visible := by simp
  copies := by simp
  anchored := by
    rw [Node.recursions, List.forall_mem_singleton]
    exact h.imp_right .inl
  counted := rfl
  cloned := by simp

end Lowered

/-! ## Constructs -/

theorem plain_wordBoundary (negated : Bool) : Plain (wordBoundary negated) :=
  ⟨⟨plainItems_wordItems, plainItems_wordItems, trivial⟩,
    ⟨plainItems_wordItems, plainItems_wordItems, trivial⟩, trivial⟩

theorem plain_grapheme : Plain grapheme :=
  ⟨⟨trivial, trivial, trivial⟩,
    ⟨⟨trivial, trivial, trivial⟩, ⟨plainName_of_mem (by decide), trivial⟩, trivial⟩, trivial⟩

theorem plain_lineBreak : Plain lineBreak := by
  refine ⟨⟨trivial, trivial, trivial⟩, plainItems_iff.2 fun i hi => ?_, trivial⟩
  obtain ⟨c, -, rfl⟩ := List.mem_map.1 hi
  trivial

theorem lowered_assertion {a : Source.Assertion} {ancestors : List Nat} {inClone : Bool}
    (h : lowerAssertion e a = .ok m) : Lowered known ancestors inClone [] st st m := by
  have hend : Lowered known ancestors inClone [] st st stringEndNewline :=
    .quiet _ _ _ _ ⟨trivial, trivial, trivial⟩ (by simp [stringEndNewline, Node.ahead, Node.char])
      rfl
  have hlook : ∀ l, Lowered known ancestors inClone [] st st (.look l (.cls .notNewline)) :=
    fun l => .quiet _ _ _ _ ⟨trivial, trivial⟩ (by simp) rfl
  have hassertion : ∀ b, Lowered known ancestors inClone [] st st (.assertion b) :=
    fun b => .quiet _ _ _ _ trivial (by simp) rfl
  have hboundary : ∀ negated, Lowered known ancestors inClone [] st st
      (lowerAssertion.boundary e negated) := by
    intro negated
    unfold lowerAssertion.boundary
    split
    · exact hassertion _
    · exact .quiet _ _ _ _ (plain_wordBoundary negated)
        (by simp [wordBoundary, Node.ahead, Node.behind]) rfl
  cases a <;> cases h
  case lineStart => split <;> first | exact hassertion _ | exact hlook _
  case lineEnd => split <;> first | exact hend | exact hlook _
  case stringStart => exact hassertion _
  case stringEnd => exact hassertion _
  case stringEndNewline => exact hend
  case wordBoundary => exact hboundary false
  case nonWordBoundary => exact hboundary true

/-! ## Trees -/

theorem agrees_parenthesized (m : Node) : m.Agrees (parenthesized m) := by
  unfold parenthesized
  split
  · exact ⟨id, by simp, by rw [Node.recursions]⟩
  · exact .refl m

theorem plainTitle_of_plain {s : String} (h : NameRule.plain.title s) : Emitted.PlainTitle s := by
  have hall := List.all_eq_true.1 h
  refine ⟨fun hc => absurd (hall _ hc) (by decide +kernel), fun c hc => ?_⟩
  have hname := hall c (List.mem_of_mem_head? hc)
  constructor <;> rintro rfl <;> exact absurd hname (by decide +kernel)

/-- What a call becomes has the groups of nothing but itself. -/
def CallsLowered (known : List Nat) (call : Trail → Scope → Nat → Lower Node) : Prop :=
  ∀ t s target st m st', (call t s target).run st = .ok (m, st') →
    Lowered known t.ancestors s.inClone [] st st' m

/-- Where a sequence is cut there is a `\K`. -/
def CutAtKeep (cut : Option Nat) (ns : List Source.Node) : Prop :=
  ∀ k ∈ cut, ns[k]? = some .keep

theorem cutAtKeep_lastKeep? (ns : List Source.Node) : CutAtKeep (lastKeep? ns) ns := by
  induction ns with
  | nil => simp [CutAtKeep, lastKeep?]
  | cons n ns ih =>
    intro k hk
    unfold lastKeep? at hk
    split at hk
    next j hj =>
      cases hk
      exact ih j hj
    next =>
      cases hk
      rfl
    next => cases hk

theorem cutAtKeep_sequence (s : Scope) (ns : List Source.Node) :
    CutAtKeep (if s.topLevel then lastKeep? ns else none) ns := by
  split
  · exact cutAtKeep_lastKeep? ns
  · simp [CutAtKeep]

section

variable {e : Lowering} {call : Trail → Scope → Nat → Lower Node} {known : List Nat}

/-- What is left of the parts `done`, the last one first, where a `\K` is dropped. -/
inductive LeftAtKeep (done : List Node) : List Node → Prop where
  /-- There is another `\K` to come. -/
  | all : LeftAtKeep done done
  | nothing (h : (Node.ofSequence done.reverse).isEmpty = true) : LeftAtKeep done []
  | behind : LeftAtKeep done [.behind false (.ofSequence done.reverse)]

theorem LeftAtKeep.agrees {done done' : List Node} (h : LeftAtKeep done done') :
    (Node.sequence done.reverse).Agrees (.sequence done'.reverse) := by
  have hbefore := Node.agrees_ofSequence done.reverse
  cases h with
  | all => exact .refl _
  | nothing hempty =>
    rw [Node.eq_empty_of_isEmpty hempty] at hbefore
    exact hbefore.trans ⟨id, by simp, rfl⟩
  | behind =>
    have hlook : (Node.ofSequence done.reverse).Agrees
        (.behind false (Node.ofSequence done.reverse)) :=
      ⟨id, by simp [Node.behind], by rw [Node.behind, Node.recursions]⟩
    exact (hbefore.trans hlook).trans (Node.agrees_sequence_singleton _)

/-- **How the next part of a sequence is lowered.** It joins those that are done, unless it is a `\K`
that is dropped. -/
theorem lowerParts_cases {n : Source.Node} {ns : List Source.Node} {cut : Option Nat}
    {done ms : List Node} (hcut : CutAtKeep cut (n :: ns))
    (h : (lowerParts e call t s cut done (n :: ns)).run st = .ok (ms, st')) :
    ∃ cut', CutAtKeep cut' ns ∧
      ((∃ part st₁, (lowerNode e call t s n).run st = .ok (part, st₁) ∧
          (lowerParts e call t s cut' (part :: done) ns).run st₁ = .ok (ms, st')) ∨
        n = .keep ∧ ∃ done', LeftAtKeep done done' ∧
          (lowerParts e call t s cut' done' ns).run st = .ok (ms, st')) := by
  have hnone : CutAtKeep none ns := by simp [CutAtKeep]
  unfold lowerParts at h
  split at h
  next =>
    refine ⟨none, hnone, .inr ⟨by simpa using hcut 0 rfl, ?_⟩⟩
    dsimp only at h
    split at h
    next hempty => exact ⟨_, .nothing hempty, h⟩
    next =>
      obtain ⟨_, _, ha, h⟩ := exists_of_run_bind h
      obtain ⟨-, rfl⟩ := eq_of_run_lift ha
      exact ⟨_, .behind, h⟩
  next k =>
    exact ⟨some k, fun j hj => by cases hj; exact hcut _ rfl, .inr ⟨rfl, done, .all, h⟩⟩
  next k _ =>
    obtain ⟨part, st₁, hp, h⟩ := exists_of_run_bind h
    exact ⟨some k, fun j hj => by cases hj; exact hcut _ rfl, .inl ⟨part, st₁, hp, h⟩⟩
  next =>
    obtain ⟨part, st₁, hp, h⟩ := exists_of_run_bind h
    exact ⟨none, hnone, .inl ⟨part, st₁, hp, h⟩⟩

mutual

theorem lowered_lowerNode (hcall : CallsLowered known call) (n : Source.Node) {t : Trail} {s : Scope}
    {st st' : Bool} {m : Node} (hk : n.keeps .plain) (hn : ∀ c ∈ n.captures, c.1 ∈ known)
    (h : (lowerNode e call t s n).run st = .ok (m, st')) :
    Lowered known t.ancestors s.inClone n.captures st st' m := by
  cases n with
  | empty | literal | dot =>
    rw [lowerNode] at h
    cases h
    exact .quiet _ _ _ _ trivial (by simp) rfl
  | set x =>
    rw [lowerNode] at h
    obtain ⟨⟨negated, items⟩, st₁, hx, hm⟩ := exists_of_run_bind h
    obtain ⟨hset, rfl⟩ := eq_of_run_lift hx
    cases hm
    exact .quiet _ _ _ _ (plainItems_of_lowerSet hk hset) (by simp) rfl
  | charClass c =>
    rw [lowerNode] at h
    obtain ⟨cls, st₁, hc, hm⟩ := exists_of_run_bind h
    obtain ⟨hcls, rfl⟩ := eq_of_run_lift hc
    cases hm
    exact .quiet _ _ _ _ (plainClass_of_lowerClass _ _ c hk hcls) (by simp) rfl
  | sequence ns =>
    rw [lowerNode] at h
    obtain ⟨ms, st₁, hms, h⟩ := exists_of_run_bind h
    cases h
    have hparts := lowered_lowerParts hcall ns (cutAtKeep_sequence s ns) hk hn
      (Lowered.nil known t.ancestors s.inClone st) hms
    exact hparts.of_agrees (Node.agrees_ofSequence ms)
  | alternation ns =>
    rw [lowerNode] at h
    obtain ⟨ms, st₁, hms, h⟩ := exists_of_run_bind h
    cases h
    exact (lowered_lowerAll hcall ns hk hn hms).of_agrees
      ⟨id, by simp, by rw [Node.recursions, Node.recursions]⟩
  | group kind body =>
    cases kind with
    | capture number name =>
      rw [Source.Node.keeps, Bool.and_eq_true] at hk
      rw [Source.Node.captures, List.forall_mem_cons] at hn
      rw [lowerNode] at h
      obtain ⟨b, st₁, hb, h⟩ := exists_of_run_bind h
      cases h
      have hname : ∀ s ∈ name, Emitted.PlainTitle s := by
        rintro s rfl
        exact plainTitle_of_plain hk.1
      exact (lowered_lowerNode hcall body hk.2 hn.2 hb).capture hname hn.1
    | flags =>
      rw [lowerNode] at h
      obtain ⟨b, st₁, hb, h⟩ := exists_of_run_bind h
      cases h
      exact (lowered_lowerNode hcall body hk hn hb).of_agrees (agrees_parenthesized b)
    | _ =>
      rw [lowerNode] at h
      obtain ⟨b, st₁, hb, h⟩ := exists_of_run_bind h
      cases h
      exact (lowered_lowerNode hcall body hk hn hb).of_agrees ⟨id, by simp, by rw [Node.recursions]⟩
  | repeated body =>
    rw [lowerNode] at h
    obtain ⟨b, st₁, hb, h⟩ := exists_of_run_bind h
    cases h
    exact (lowered_lowerNode hcall body hk hn hb).of_agrees ⟨id, by simp, by rw [Node.recursions]⟩
  | assertion a =>
    rw [lowerNode] at h
    obtain ⟨ha, rfl⟩ := eq_of_run_lift h
    exact lowered_assertion ha
  | backreference =>
    rw [lowerNode] at h
    have h := run_of_guard h
    cases h
    exact .quiet _ _ _ _ trivial (by simp) rfl
  | subroutine =>
    rw [lowerNode] at h
    exact hcall _ _ _ _ _ _ h
  | keep =>
    rw [lowerNode] at h
    split at h <;> cases h
    exact .quiet _ _ _ _ trivial (by simp) rfl
  | lineBreak =>
    rw [lowerNode] at h
    cases h
    exact .quiet _ _ _ _ plain_lineBreak (by simp [lineBreak, Node.char]) rfl
  | grapheme =>
    rw [lowerNode] at h
    obtain ⟨_, st₁, ha, h⟩ := exists_of_run_bind h
    obtain ⟨-, rfl⟩ := eq_of_run_lift ha
    cases h
    exact .quiet _ _ _ _ plain_grapheme (by simp [grapheme, Node.char]) rfl
  | absent =>
    rw [lowerNode] at h
    cases h

theorem lowered_lowerAll (hcall : CallsLowered known call) (ns : List Source.Node) {t : Trail}
    {s : Scope} {st st' : Bool} {ms : List Node} (hk : Source.keepsAll .plain ns)
    (hn : ∀ c ∈ capturesAll ns, c.1 ∈ known) (h : (lowerAll e call t s ns).run st = .ok (ms, st')) :
    Lowered known t.ancestors s.inClone (capturesAll ns) st st' (.sequence ms) := by
  cases ns with
  | nil =>
    rw [lowerAll] at h
    cases h
    exact .nil _ _ _ _
  | cons n ns =>
    rw [Source.keepsAll, Bool.and_eq_true] at hk
    rw [capturesAll, List.forall_mem_append] at hn
    rw [lowerAll] at h
    obtain ⟨first, st₁, hf, h⟩ := exists_of_run_bind h
    obtain ⟨others, st₂, ho, h⟩ := exists_of_run_bind h
    cases h
    exact (lowered_lowerNode hcall n hk.1 hn.1 hf).cons (lowered_lowerAll hcall ns hk.2 hn.2 ho)

/-- The parts of a sequence, of which `done` have been lowered. -/
theorem lowered_lowerParts (hcall : CallsLowered known call) (ns : List Source.Node) {t : Trail}
    {s : Scope} {cut : Option Nat} {done ms : List Node} {cs : List (Nat × Option String)}
    {st₀ st st' : Bool} (hcut : CutAtKeep cut ns) (hk : Source.keepsAll .plain ns)
    (hn : ∀ c ∈ capturesAll ns, c.1 ∈ known)
    (hd : Lowered known t.ancestors s.inClone cs st₀ st (.sequence done.reverse))
    (h : (lowerParts e call t s cut done ns).run st = .ok (ms, st')) :
    Lowered known t.ancestors s.inClone (cs ++ capturesAll ns) st₀ st' (.sequence ms) := by
  cases ns with
  | nil =>
    rw [lowerParts] at h
    cases h
    simpa [capturesAll] using hd
  | cons n ns =>
    rw [Source.keepsAll, Bool.and_eq_true] at hk
    rw [capturesAll, List.forall_mem_append] at hn
    obtain ⟨cut', hcut', ⟨part, st₁, hp, h⟩ | ⟨rfl, done', hdone, h⟩⟩ := lowerParts_cases hcut h
    · have hpart := (lowered_lowerNode hcall n hk.1 hn.1 hp).of_agrees
        (Node.agrees_sequence_singleton part)
      have hdone := hd.append hpart
      rw [← List.reverse_cons] at hdone
      rw [capturesAll, ← List.append_assoc]
      exact lowered_lowerParts hcall ns hcut' hk.2 hn.2 hdone h
    · exact lowered_lowerParts hcall ns hcut' hk.2 hn.2 (hd.of_agrees hdone.agrees) h

end

end

/-! ## Calls -/

/-- What is needed of a definition: it is of one of the groups, and its names are plain. -/
structure Definition.Plain (known : List Nat) (d : Definition) : Prop where
  name : ∀ s ∈ d.name, NameRule.plain.title s
  body : d.body.keeps .plain
  number : d.number ∈ known
  captures : ∀ c ∈ d.body.captures, c.1 ∈ known

mutual

theorem plain_definitions (n : Source.Node) {s : Scope} {found : List Definition}
    (hk : n.keeps .plain) (hn : ∀ c ∈ n.captures, c.1 ∈ known) (hf : ∀ d ∈ found, d.Plain known) :
    ∀ d ∈ definitions s found n, d.Plain known := by
  cases n with
  | group kind body =>
    cases kind with
    | capture number name =>
      rw [Source.Node.keeps, Bool.and_eq_true] at hk
      rw [Source.Node.captures, List.forall_mem_cons] at hn
      rw [definitions]
      refine plain_definitions body hk.2 hn.2 (List.forall_mem_cons.2 ⟨⟨?_, hk.2, hn.1, hn.2⟩, hf⟩)
      rintro _ rfl
      exact hk.1
    | _ => exact plain_definitions body hk hn hf
  | repeated body | absent body => exact plain_definitions body hk hn hf
  | sequence ns | alternation ns => exact plain_definitionsAll ns hk hn hf
  | _ => exact hf

theorem plain_definitionsAll : ∀ (ns : List Source.Node) {s : Scope}
    {found : List Definition}, Source.keepsAll .plain ns → (∀ c ∈ capturesAll ns, c.1 ∈ known) →
    (∀ d ∈ found, d.Plain known) → ∀ d ∈ definitionsAll s found ns, d.Plain known
  | [], s, found, _, _, hf => hf
  | n :: ns, s, found, hk, hn, hf => by
    rw [Source.keepsAll, Bool.and_eq_true] at hk
    rw [capturesAll, List.forall_mem_append] at hn
    exact plain_definitionsAll ns hk.2 hn.2 (plain_definitions n hk.1 hn.1 hf)

end

/-- A call becomes a recursion outside of copies, and if no other call has. -/
theorem eq_of_lowerRecursion (h : (lowerRecursion e t s target).run st = .ok (m, st')) :
    s.inClone = false ∧ m = .recursion target ∧ st = false ∧ st' = true := by
  unfold lowerRecursion at h
  split at h
  next => cases h
  next hclone =>
    have hs : s.inClone = false := by
      cases hi : s.inClone <;> simp_all
    cases st with
    | true => cases h
    | false =>
      change (do e.approximate .recursion; return .recursion target : Lower Node).run true
        = .ok (m, st') at h
      obtain ⟨_, _, ha, hm⟩ := exists_of_run_bind h
      obtain ⟨-, rfl⟩ := eq_of_run_lift ha
      cases hm
      exact ⟨hs, rfl, rfl, rfl⟩

/-- **What a call becomes.** Outside of copies, a call to a group around it is a recursion. Any other
call is a copy of the group, made from its definition. -/
theorem lowerCall_cases {depth : Nat} (h : (lowerCall e depth t s target).run st = .ok (m, st')) :
    (s.inClone = false ∧ (target = 0 ∨ target ∈ t.ancestors) ∧ m = .recursion target ∧
      st = false ∧ st' = true) ∨
    ((target ≠ 0 ∧ target ∉ t.ancestors) ∧ ∃ depth' d body, depth = depth' + 1 ∧
      e.definition? target = some d ∧
      (lowerNode e (lowerCall e depth') ⟨target :: t.ancestors, target :: t.inlining⟩
        { d.scope with topLevel := false, inClone := true } d.body).run st = .ok (body, st') ∧
      m = .capture target d.name true (some target) body) := by
  unfold lowerCall at h
  split at h
  next ht =>
    obtain ⟨hs, hm⟩ := eq_of_lowerRecursion h
    exact .inl ⟨hs, by simpa using ht, hm⟩
  next ht =>
    split at h
    next => cases h
    next =>
      split at h
      next depth' d hdef =>
        obtain ⟨body, st₁, hb, hm⟩ := exists_of_run_bind h
        cases hm
        exact .inr ⟨by simpa using ht, depth', d, body, rfl, hdef, hb, rfl⟩
      next => cases h

/-- The calls of a pattern, inside at most `depth` more calls. -/
theorem callsLowered_lowerCall (hd : ∀ d ∈ e.definitions, d.Plain known) (depth : Nat) :
    CallsLowered known (lowerCall e depth) := by
  induction depth using Nat.strongRecOn with
  | ind depth ih =>
    intro t s target st m st' h
    rcases lowerCall_cases h with ⟨hs, ht, rfl, rfl, rfl⟩ | ⟨-, k, d, body, rfl, hdef, hb, rfl⟩
    · rw [hs]
      exact .recursion ht
    · have hplain := hd d (List.mem_of_find?_eq_some hdef)
      have hnumber : d.number = target := by simpa using List.find?_some hdef
      rw [← hnumber]
      exact (lowered_lowerNode (ih k (Nat.lt_succ_self k)) d.body hplain.body hplain.captures hb).call
        (fun s hs => plainTitle_of_plain (hplain.name s hs)) hplain.number

/-- **What lowering gives.** -/
theorem lowered_of_lower {o : LowerOptions} {p : Source.Pattern} {q : Pattern}
    (hk : p.root.keeps .plain) (h : Pattern.lower o p = .ok q) :
    ∃ st, Lowered (p.root.captures.map (·.1)) [] false p.root.captures false st q.root := by
  have halike := Source.alike_splitStrategy o.singleline p.root
  have hknown : ∀ c ∈ p.root.captures, c.1 ∈ p.root.captures.map (·.1) :=
    fun c hc => List.mem_map_of_mem hc
  unfold Pattern.lower at h
  dsimp only at h
  split at h
  next => cases h
  next =>
    obtain ⟨root, hroot, h⟩ := exists_of_bind_eq_ok h
    cases h
    obtain ⟨⟨m, st⟩, hrun, hm⟩ := exists_of_bind_eq_ok hroot
    cases hm
    refine ⟨st, ?_⟩
    have hplain : ∀ s, ∀ d ∈ definitions s [] p.root, d.Plain (p.root.captures.map (·.1)) :=
      fun s => plain_definitions p.root hk hknown (by simp)
    have hlowered := lowered_lowerNode (callsLowered_lowerCall (hplain _) _) _ (halike.keeps hk)
      (by rwa [halike.captures]) hrun
    rwa [halike.captures] at hlowered

end Diglot.Core
