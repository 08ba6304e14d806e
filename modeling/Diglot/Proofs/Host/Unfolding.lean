import Diglot.Host.Matcher
import Mathlib.Data.List.Nodup
import Mathlib.Data.Option.Basic

/-!
# Matching without atomic groups

An atomic group can be unfolded to a look ahead that captures what the group matches, followed by a
reference to that capture. From left to right both match alike: the host does not go back into the
look ahead, and the reference takes up exactly what was captured. From right to left the reference
comes first and finds nothing captured, so all that is left is the look ahead (`Node.settled`).

The main statement is `Unfolded.matchesAs`: the unfolded tree matches as the settled one does, with
the captures renumbered.
-/

namespace Diglot.Host

variable {n b b' : Node} {k q i p : Nat} {m : Mode} {a a' : Matcher} {s : Subject} {d : Direction}
  {P : Nat → Prop}

/-! ## Renumbered captures -/

/-- How captures are numbered anew when others are added between them. -/
structure Renumbering where
  /-- How many captures there were. -/
  count : Nat
  /-- How many captures there are. -/
  total : Nat
  /-- The new number of a capture. -/
  new : Nat → Nat
  bounds : ∀ k, 0 < k → k ≤ count → 0 < new k ∧ new k ≤ total
  injective : ∀ j k, 0 < j → j ≤ count → 0 < k → k ≤ count → new j = new k → j = k

namespace Renumbering

variable (f : Renumbering)

/-- The number of a capture that was there before. -/
def IsOld (k : Nat) : Prop :=
  0 < k ∧ k ≤ f.count

/-- The number of a capture that was added. -/
def IsAdded (n : Nat) : Prop :=
  0 < n ∧ n ≤ f.total ∧ ∀ k, f.IsOld k → f.new k ≠ n

end Renumbering

namespace Node

/-- Whether a node has no parts and refers to no capture. -/
def isLeaf : Node → Bool
  | empty | any | set _ _ | member _ _ | edge _ => true
  | _ => false

/-- What stands in the place of an atomic group, with a capture of its own. -/
def unfoldedAtomic (n : Nat) (body : Node) : Node :=
  .sequence (.look ⟨false, false⟩ (.capture n none body)) (.backreference [n])

/-- What is left of a tree when its atomic groups are unfolded: one that is matched from right to
left becomes a look ahead. -/
def settled : Direction → Node → Node
  | d, capture k name body => capture k name (body.settled d)
  | .forward, atomic body => atomic (body.settled .forward)
  | .backward, atomic body => look ⟨false, false⟩ (body.settled .forward)
  | d, modified change body => modified change (body.settled d)
  | _, look l body => look l (body.settled (if l.behind then .backward else .forward))
  | d, repeated min max isLazy body => repeated min max isLazy (body.settled d)
  | d, sequence a b => sequence (a.settled d) (b.settled d)
  | d, alternation a b => alternation (a.settled d) (b.settled d)
  | _, n => n

/-- Whether the innermost look around of an atomic group is a look behind. The tree itself may stand
in one. -/
def hasAtomicBehind : Bool → Node → Bool
  | behind, atomic body => behind || body.hasAtomicBehind behind
  | _, look l body => body.hasAtomicBehind l.behind
  | behind, capture _ _ body | behind, modified _ body | behind, repeated _ _ _ body =>
    body.hasAtomicBehind behind
  | behind, sequence a b | behind, alternation a b =>
    a.hasAtomicBehind behind || b.hasAtomicBehind behind
  | _, _ => false

section

variable (k : Nat) (name : Option (List Char)) (l : Look) (change : ModeChange) (min : Nat)
  (max : Option Nat) (isLazy : Bool) (a b : Node) (ns : List Nat)

@[simp] theorem numbers_capture : (capture k name a).numbers = k :: a.numbers := rfl

@[simp] theorem numbers_atomic : (atomic a).numbers = a.numbers := rfl

@[simp] theorem numbers_modified : (modified change a).numbers = a.numbers := rfl

@[simp] theorem numbers_look : (look l a).numbers = a.numbers := rfl

@[simp] theorem numbers_repeated : (repeated min max isLazy a).numbers = a.numbers := rfl

@[simp] theorem numbers_backreference : (backreference ns).numbers = [] := rfl

@[simp] theorem numbers_sequence : (sequence a b).numbers = a.numbers ++ b.numbers :=
  List.map_append

@[simp] theorem numbers_alternation : (alternation a b).numbers = a.numbers ++ b.numbers :=
  List.map_append

@[simp] theorem numbers_unfoldedAtomic : (unfoldedAtomic k a).numbers = k :: a.numbers := by
  simp [unfoldedAtomic]

end

theorem numbers_leaf (h : n.isLeaf) : n.numbers = [] := by
  cases n <;> first | rfl | cases h

theorem settled_leaf (h : n.isLeaf) (d : Direction) : n.settled d = n := by
  cases n <;> first | rfl | cases h

theorem numbers_settled (n : Node) (d : Direction) : (n.settled d).numbers = n.numbers := by
  induction n generalizing d with
  | atomic body ih => cases d <;> simp [settled, ih]
  | capture | modified | repeated | look | sequence | alternation => simp_all [settled]
  | _ => rfl

/-- Where no atomic group is matched from right to left, nothing is lost. -/
theorem settled_eq (n : Node) (behind : Bool) (h : n.hasAtomicBehind behind = false) :
    n.settled (if behind then .backward else .forward) = n := by
  induction n generalizing behind with
  | capture k name body ih | modified change body ih | repeated min max isLazy body ih =>
    rw [settled, ih behind h]
  | atomic body ih =>
    rw [hasAtomicBehind, Bool.or_eq_false_iff] at h
    cases h.1
    have hbody : body.settled .forward = body := ih false h.2
    exact congrArg atomic hbody
  | look l body ih => rw [settled, ih l.behind h]
  | sequence a b iha ihb | alternation a b iha ihb =>
    rw [hasAtomicBehind, Bool.or_eq_false_iff] at h
    rw [settled, iha behind h.1, ihb behind h.2]
  | _ => rfl

end Node

/-- The second tree is the first with its atomic groups unfolded and its captures renumbered. -/
inductive Unfolded (f : Renumbering) : Node → Node → Prop where
  | leaf {n : Node} (h : n.isLeaf) : Unfolded f n n
  | backreference {ns : List Nat} (h : ∀ k ∈ ns, f.IsOld k) :
    Unfolded f (.backreference ns) (.backreference (ns.map f.new))
  | capture {k : Nat} {name : Option (List Char)} {n n' : Node} (h : f.IsOld k)
    (hbody : Unfolded f n n') : Unfolded f (.capture k name n) (.capture (f.new k) name n')
  | atomic {i : Nat} {n n' : Node} (h : f.IsAdded i) (hbody : Unfolded f n n') :
    Unfolded f (.atomic n) (.unfoldedAtomic i n')
  | modified {change : ModeChange} {n n' : Node} (hbody : Unfolded f n n') :
    Unfolded f (.modified change n) (.modified change n')
  | look {l : Look} {n n' : Node} (hbody : Unfolded f n n') : Unfolded f (.look l n) (.look l n')
  | repeated {min : Nat} {max : Option Nat} {isLazy : Bool} {n n' : Node}
    (hbody : Unfolded f n n') : Unfolded f (.repeated min max isLazy n) (.repeated min max isLazy n')
  | sequence {a a' b b' : Node} (ha : Unfolded f a a') (hb : Unfolded f b b') :
    Unfolded f (.sequence a b) (.sequence a' b')
  | alternation {a a' b b' : Node} (ha : Unfolded f a a') (hb : Unfolded f b b') :
    Unfolded f (.alternation a b) (.alternation a' b')

variable {f : Renumbering} {n n' : Node}

/-! ## Numbers of an unfolded tree -/

namespace Unfolded

theorem isOld (h : Unfolded f n n') : ∀ k ∈ n.numbers, f.IsOld k := by
  induction h with
  | leaf h => simp [Node.numbers_leaf h]
  | backreference h => simp
  | capture h hbody ih => simpa using ⟨h, ih⟩
  | atomic h hbody ih => simpa using ih
  | modified hbody ih | look hbody ih | repeated hbody ih => simpa using ih
  | sequence ha hb iha ihb | alternation ha hb iha ihb =>
    simp only [Node.numbers_sequence, Node.numbers_alternation]
    exact List.forall_mem_append.2 ⟨iha, ihb⟩

theorem new_mem (h : Unfolded f n n') : ∀ k ∈ n.numbers, f.new k ∈ n'.numbers := by
  induction h with
  | leaf h => simp [Node.numbers_leaf h]
  | backreference h => simp
  | capture h hbody ih | atomic h hbody ih => simp_all
  | modified hbody ih | look hbody ih | repeated hbody ih => simpa using ih
  | sequence ha hb iha ihb | alternation ha hb iha ihb =>
    simp only [Node.numbers_sequence, Node.numbers_alternation, List.mem_append]
    exact fun k hk => hk.imp (iha k) (ihb k)

/-- Every number in the unfolded tree is that of an old capture or was added. -/
theorem isAdded_or (h : Unfolded f n n') :
    ∀ i ∈ n'.numbers, f.IsAdded i ∨ ∃ k ∈ n.numbers, f.new k = i := by
  induction h with
  | leaf h => simp [Node.numbers_leaf h]
  | backreference h => simp
  | capture h hbody ih =>
    simp only [Node.numbers_capture, List.forall_mem_cons]
    refine ⟨.inr ⟨_, by simp, rfl⟩, fun i hi => (ih i hi).imp id ?_⟩
    rintro ⟨k, hk, rfl⟩
    exact ⟨k, by simp [hk], rfl⟩
  | atomic h hbody ih =>
    simp only [Node.numbers_unfoldedAtomic, List.forall_mem_cons]
    exact ⟨.inl h, ih⟩
  | modified hbody ih | look hbody ih | repeated hbody ih => simpa using ih
  | sequence ha hb iha ihb | alternation ha hb iha ihb =>
    simp only [Node.numbers_sequence, Node.numbers_alternation, List.mem_append]
    rintro i (hi | hi)
    · exact (iha i hi).imp id fun ⟨k, hk, he⟩ => ⟨k, .inl hk, he⟩
    · exact (ihb i hi).imp id fun ⟨k, hk, he⟩ => ⟨k, .inr hk, he⟩

/-- A capture is in the tree if its new number is in the unfolded tree. -/
theorem new_mem_iff (h : Unfolded f n n') (hk : f.IsOld k) :
    f.new k ∈ n'.numbers ↔ k ∈ n.numbers := by
  refine ⟨fun hmem => ?_, h.new_mem k⟩
  rcases h.isAdded_or _ hmem with hadded | ⟨j, hj, he⟩
  · exact absurd rfl (hadded.2.2 k hk)
  · have hold := h.isOld j hj
    rwa [← f.injective j k hold.1 hold.2 hk.1 hk.2 he]

theorem number_pos (h : Unfolded f n n') : ∀ i ∈ n'.numbers, 0 < i := by
  intro i hi
  rcases h.isAdded_or i hi with hadded | ⟨k, hk, rfl⟩
  · exact hadded.1
  · have hold := h.isOld k hk
    exact (f.bounds k hold.1 hold.2).1

end Unfolded

/-! ## Threads -/

namespace Thread

theorem capture_setCapture (t : Thread) {m n : Nat} (hm : 0 < m) (hn : 0 < n) (s : Span) :
    (t.setCapture n s).capture m
      = if m = n ∧ n ≤ t.captures.length then some s else t.capture m := by
  unfold setCapture capture
  rw [List.getD_eq_getElem?_getD, List.getD_eq_getElem?_getD, List.getElem?_set]
  by_cases hmn : m = n
  · subst hmn
    by_cases hlt : m ≤ t.captures.length
    · rw [if_pos rfl, if_pos (by omega), if_pos ⟨rfl, hlt⟩]
      rfl
    · rw [if_pos rfl, if_neg (by omega), if_neg (fun h => hlt h.2),
        List.getElem?_eq_none (by omega)]
  · rw [if_neg (by omega), if_neg fun h => hmn h.1]

theorem captures_clear_cons (t : Thread) (n : Nat) (ns : List Nat) :
    t.clear (n :: ns) = ({ t with captures := t.captures.set (n - 1) none } : Thread).clear ns := rfl

theorem capture_clear : ∀ (ns : List Nat), (∀ n ∈ ns, 0 < n) → ∀ (t : Thread) {m : Nat}, 0 < m →
    (t.clear ns).capture m = if m ∈ ns then none else t.capture m
  | [], _, t, m, _ => rfl
  | n :: ns, hpos, t, m, hm => by
    obtain ⟨hn, hns⟩ := List.forall_mem_cons.1 hpos
    rw [captures_clear_cons, capture_clear ns hns _ hm]
    by_cases hmem : m ∈ ns
    · rw [if_pos hmem, if_pos (List.mem_cons_of_mem n hmem)]
    · rw [if_neg hmem]
      unfold capture
      rw [List.getD_eq_getElem?_getD, List.getD_eq_getElem?_getD, List.getElem?_set]
      by_cases hmn : m = n
      · subst hmn
        rw [if_pos rfl, if_pos List.mem_cons_self]
        split <;> rfl
      · rw [if_neg (by omega), if_neg (by simp [hmn, hmem])]

theorem length_clear (ns : List Nat) (t : Thread) :
    (t.clear ns).captures.length = t.captures.length := by
  induction ns generalizing t with
  | nil => rfl
  | cons n ns ih =>
    rw [captures_clear_cons, ih]
    exact List.length_set

end Thread

/-- Two threads are alike: at the same position, which satisfies `P`, with the same captures under
their new numbers, and with nothing in the captures of `S` yet. -/
structure Alike (f : Renumbering) (P S : Nat → Prop) (t t' : Thread) : Prop where
  position : t'.position = t.position
  within : P t.position
  length : t.captures.length = f.count
  length' : t'.captures.length = f.total
  captures : ∀ k, f.IsOld k → t'.capture (f.new k) = t.capture k
  unset : ∀ i, S i → t'.capture i = none

namespace Alike

variable {P' S S' : Nat → Prop} {t t' : Thread}

theorem mono (h : Alike f P S t t') (hS : ∀ i, S' i → S i) : Alike f P S' t t' :=
  { h with unset := fun i hi => h.unset i (hS i hi) }

/-- Both threads move to another position. -/
theorem move (h : Alike f P S t t') (hq : P' q) :
    Alike f P' S { t with position := q } { t' with position := q } :=
  { h with position := rfl, within := hq, captures := h.captures, unset := h.unset }

theorem setOld (h : Alike f P S t t') (hk : f.IsOld k) (hS : ∀ i, S i → f.IsAdded i) (s : Span) :
    Alike f P S (t.setCapture k s) (t'.setCapture (f.new k) s) where
  position := h.position
  within := h.within
  length := (List.length_set ..).trans h.length
  length' := (List.length_set ..).trans h.length'
  captures j hj := by
    have hnew := f.bounds k hk.1 hk.2
    rw [Thread.capture_setCapture t' (f.bounds j hj.1 hj.2).1 hnew.1,
      Thread.capture_setCapture t hj.1 hk.1, h.length, h.length', h.captures j hj]
    by_cases hjk : j = k
    · subst hjk
      rw [if_pos ⟨rfl, hnew.2⟩, if_pos ⟨rfl, hk.2⟩]
    · rw [if_neg fun he => hjk (f.injective j k hj.1 hj.2 hk.1 hk.2 he.1), if_neg fun he => hjk he.1]
  unset i hi := by
    have hadded := hS i hi
    rw [Thread.capture_setCapture t' hadded.1 (f.bounds k hk.1 hk.2).1,
      if_neg fun he => hadded.2.2 k hk he.1.symm, h.unset i hi]

/-- An added capture is set in the second thread alone. -/
theorem setAdded (h : Alike f P S t t') {n : Nat} (hn : f.IsAdded n)
    (hS : ∀ i, S i → 0 < i ∧ i ≠ n) (s : Span) : Alike f P S t (t'.setCapture n s) where
  position := h.position
  within := h.within
  length := h.length
  length' := (List.length_set ..).trans h.length'
  captures k hk := by
    rw [Thread.capture_setCapture t' (f.bounds k hk.1 hk.2).1 hn.1,
      if_neg fun he => hn.2.2 k hk he.1, h.captures k hk]
  unset i hi := by
    rw [Thread.capture_setCapture t' (hS i hi).1 hn.1, if_neg fun he => (hS i hi).2 he.1, h.unset i hi]

theorem capture_setAdded (h : Alike f P S t t') {n : Nat} (hn : f.IsAdded n) (s : Span) :
    (t'.setCapture n s).capture n = some s := by
  rw [Thread.capture_setCapture t' hn.1 hn.1, if_pos ⟨rfl, h.length' ▸ hn.2.1⟩]

/-- Where a repetition forgets its captures, those that were added are forgotten too. -/
theorem clear (h : Alike f P S t t') (hn : Unfolded f n n') :
    Alike f P (fun i => S i ∧ 0 < i ∨ i ∈ n'.numbers) (t.clear n.numbers) (t'.clear n'.numbers) where
  position := h.position
  within := h.within
  length := (Thread.length_clear ..).trans h.length
  length' := (Thread.length_clear ..).trans h.length'
  captures k hk := by
    rw [Thread.capture_clear _ hn.number_pos _ (f.bounds k hk.1 hk.2).1,
      Thread.capture_clear _ (fun j hj => (hn.isOld j hj).1) _ hk.1, h.captures k hk]
    simp only [hn.new_mem_iff hk]
  unset i hi := by
    have hpos : 0 < i := hi.elim (·.2) (hn.number_pos i)
    rw [Thread.capture_clear _ hn.number_pos _ hpos]
    rcases hi with hi | hi
    · rw [h.unset i hi.1, ite_self]
    · rw [if_pos hi]

end Alike

/-! ## Positions -/

/-- Matching in a direction does not leave the positions that satisfy `P`. -/
structure Keeps (size : Nat) (d : Direction) (P : Nat → Prop) : Prop where
  le : ∀ p, P p → p ≤ size
  forward : d = .forward → ∀ p q, P p → p ≤ q → q ≤ size → P q
  backward : d = .backward → ∀ p q, P p → q ≤ p → P q

theorem keeps_all (size : Nat) (d : Direction) : Keeps size d (· ≤ size) where
  le _ h := h
  forward _ _ _ _ _ h := h
  backward _ _ _ hp h := Nat.le_trans h hp

/-- From left to right, no position before the first one is reached. -/
theorem keeps_from (size start : Nat) : Keeps size .forward fun p => start ≤ p ∧ p ≤ size where
  le _ h := h.2
  forward _ _ _ hp hpq hq := ⟨Nat.le_trans hp.1 hpq, hq⟩
  backward h := by cases h

theorem Keeps.next? (h : Keeps s.text.size d P) {c : Char} (hp : P p)
    (hn : s.next? d p = some (c, q)) : P q := by
  cases d with
  | forward =>
    obtain ⟨x, hx, heq⟩ := Option.map_eq_some_iff.1 hn
    cases heq
    have hlt := (Array.getElem?_eq_some_iff.1 hx).1
    exact h.forward rfl p (p + 1) hp (Nat.le_succ p) hlt
  | backward =>
    obtain ⟨x, hx, heq⟩ := Option.map_eq_some_iff.1 hn
    cases heq
    exact h.backward rfl p (p - 1) hp (Nat.sub_le p 1)

theorem length_slice (s : Subject) (a b : Nat) :
    (s.slice ⟨a, b⟩).length = min b s.text.size - a := by
  simp [Subject.slice]
  omega

theorem Keeps.skip? (h : Keeps s.text.size d P) {text : List Char} (hp : P p)
    (hs : s.skip? m d p text = some q) : P q := by
  unfold Subject.skip? at hs
  cases d with
  | forward =>
    dsimp only at hs
    split at hs
    next hfound =>
      cases hs
      have hlength : (s.slice ⟨p, p + text.length⟩).length = text.length := by
        simpa using (Bool.and_eq_true_iff.1 hfound).1
      rw [length_slice] at hlength
      have hle := h.le p hp
      exact h.forward rfl p _ hp (Nat.le_add_right _ _) (by omega)
    next => cases hs
  | backward =>
    dsimp only at hs
    split at hs
    next =>
      cases hs
      exact h.backward rfl p _ hp (Nat.sub_le _ _)
    next => cases hs

theorem same_self (m : Mode) (g : Grammar) (text : List Char) :
    (text.zip text).all (fun x => m.same g x.1 x.2) = true := by
  induction text with
  | nil => rfl
  | cons c cs ih => rw [List.zip_cons_cons, List.all_cons, ih, Mode.same, beq_self_eq_true]; rfl

/-- A part of the text matches itself. -/
theorem skip?_slice {a b : Nat} (m : Mode) (hab : a ≤ b) (hb : b ≤ s.text.size) :
    s.skip? m .forward a (s.slice ⟨a, b⟩) = some b := by
  have hlength : (s.slice ⟨a, b⟩).length = b - a := by
    rw [length_slice, Nat.min_eq_left hb]
  have hstop : a + (b - a) = b := by omega
  have hsame := same_self m s.grammar (s.slice ⟨a, b⟩)
  unfold Subject.skip?
  dsimp only
  rw [hlength, hstop, hlength]
  simp [hsame]

/-! ## Matching -/

section

variable {S : Nat → Prop} {R : Thread → Thread → Prop} {k k' : Continuation} {t t' : Thread}

/-- The continuations give related results for threads that are alike. -/
def Agree (f : Renumbering) (P S : Nat → Prop) (R : Thread → Thread → Prop) (k k' : Continuation) :
    Prop :=
  ∀ u u', Alike f P S u u' → Option.Rel R (k u) (k' u')

theorem matcher_rel_leaf (hn : n.isLeaf) (m : Mode) (hP : Keeps s.text.size d P)
    (hk : Agree f P S R k k') (ht : Alike f P S t t') :
    Option.Rel R (n.matcher s m d t k) (n.matcher s m d t' k') := by
  have hchar : ∀ p : Char → Bool,
      Option.Rel R (Matcher.char s d p t k) (Matcher.char s d p t' k') := by
    intro p
    unfold Matcher.char
    rw [ht.position]
    cases hnext : s.next? d t.position with
    | none => exact .none
    | some found =>
      obtain ⟨c, q⟩ := found
      dsimp only
      split
      · exact hk _ _ (ht.move (hP.next? ht.within hnext))
      · exact .none
  cases n with
  | empty => exact hk t t' ht
  | any | set => exact hchar _
  | member text cs =>
    rw [Node.matcher]
    dsimp only
    rw [ht.position]
    cases hskip : (text.mapM Text.charOf?).bind (s.skip? m d t.position) with
    | none => exact .none
    | some q =>
      dsimp only
      split
      · obtain ⟨cs, -, hq⟩ := Option.bind_eq_some_iff.1 hskip
        exact hk _ _ (ht.move (hP.skip? ht.within hq))
      · exact .none
  | edge e =>
    rw [Node.matcher]
    dsimp only
    rw [ht.position]
    split
    · exact hk t t' ht
    · exact .none
  | _ => cases hn

/-- The body of a repetition, with its captures forgotten first. -/
def Node.once (n : Node) (s : Subject) (m : Mode) (d : Direction) : Matcher := fun t k =>
  n.matcher s m d (t.clear n.numbers) k

/-- Two matchers give related results for threads that are alike and continuations that agree. -/
def MatchAlike (f : Renumbering) (P S S' : Nat → Prop) (a a' : Matcher) : Prop :=
  ∀ (R : Thread → Thread → Prop) (k k' : Continuation), Agree f P S' R k k' →
    Agree f P S R (a · k) (a' · k')

theorem MatchAlike.times (h : MatchAlike f P S S a a') :
    ∀ count, MatchAlike f P S S (a.times count) (a'.times count)
  | 0 => fun _ _ _ hk => hk
  | count + 1 => fun R k k' hk => h R _ _ (h.times count R k k' hk)

theorem Option.Rel.orElse {o o' p p' : Option Thread} (h : Option.Rel R o o')
    (hp : Option.Rel R p p') : Option.Rel R (o.orElse fun _ => p) (o'.orElse fun _ => p') := by
  cases h with
  | some h => exact .some h
  | none => exact hp

theorem MatchAlike.upTo (h : MatchAlike f P S S a a') (isLazy : Bool) :
    ∀ fuel max, MatchAlike f P S S (a.upTo isLazy fuel max) (a'.upTo isLazy fuel max)
  | 0, _ => fun _ _ _ hk => hk
  | fuel + 1, max => by
    intro R k k' hk t t' ht
    unfold Matcher.upTo
    split
    · exact hk t t' ht
    · have hmore : Option.Rel R
          (a t fun u => if u.position = t.position then none
            else a.upTo isLazy fuel (max.map (· - 1)) u k)
          (a' t' fun u => if u.position = t'.position then none
            else a'.upTo isLazy fuel (max.map (· - 1)) u k') := by
        refine h R _ _ (fun u u' hu => ?_) t t' ht
        rw [hu.position, ht.position]
        split
        · exact .none
        · exact h.upTo isLazy fuel _ R k k' hk u u' hu
      dsimp only
      split
      · exact Option.Rel.orElse (hk t t' ht) hmore
      · exact Option.Rel.orElse hmore (hk t t' ht)

/-- The captures that were added to an unfolded tree. -/
def addedIn (f : Renumbering) (n' : Node) (i : Nat) : Prop :=
  f.IsAdded i ∧ i ∈ n'.numbers

/-- Captures that were added somewhere else. -/
def Elsewhere (f : Renumbering) (n' : Node) (S : Nat → Prop) : Prop :=
  ∀ i, S i → f.IsAdded i ∧ i ∉ n'.numbers

/-- The unfolded tree matches as the settled one does. -/
def MatchesAs (f : Renumbering) (n n' : Node) : Prop :=
  ∀ (s : Subject) (m : Mode) (d : Direction) (P S : Nat → Prop), Keeps s.text.size d P →
    Elsewhere f n' S →
    MatchAlike f P (fun i => S i ∨ addedIn f n' i) S ((n.settled d).matcher s m d)
      (n'.matcher s m d)

theorem matchesAs_leaf (hn : n.isLeaf) : MatchesAs f n n := by
  intro s m d P S hP hS R k k' hk t t' ht
  dsimp only
  rw [Node.settled_leaf hn]
  exact matcher_rel_leaf hn m hP hk (ht.mono fun i hi => .inl hi)

theorem matchesAs_backreference {ns : List Nat} (h : ∀ k ∈ ns, f.IsOld k) :
    MatchesAs f (.backreference ns) (.backreference (ns.map f.new)) := by
  intro s m d P S hP hS R k k' hk t t' ht
  replace ht : Alike f P S t t' := ht.mono fun i hi => .inl hi
  have hcaptures : ns.reverse.map (fun j => t'.capture (f.new j)) = ns.reverse.map t.capture :=
    List.map_congr_left fun j hj => ht.captures j (h j (List.mem_reverse.1 hj))
  have hfound : (ns.map f.new).reverse.findSome? t'.capture = ns.reverse.findSome? t.capture := by
    have hold := List.findSome?_map (p := id) (f := t.capture) (l := ns.reverse)
    have hnew := List.findSome?_map (p := id) (f := fun j => t'.capture (f.new j)) (l := ns.reverse)
    rw [hcaptures, hold] at hnew
    rw [← List.map_reverse, List.findSome?_map]
    exact hnew.symm
  dsimp only
  rw [Node.settled, Node.matcher, Node.matcher]
  · dsimp only
    rw [hfound, ht.position]
    cases ns.reverse.findSome? t.capture with
    | none => exact hk t t' ht
    | some span =>
      dsimp only
      cases hskip : s.skip? m d t.position (s.slice span) with
      | none => exact .none
      | some q => exact hk _ _ (ht.move (hP.skip? ht.within hskip))
  all_goals simp

theorem matchesAs_capture {j : Nat} {name : Option (List Char)} (hj : f.IsOld j)
    (ih : MatchesAs f n n') :
    MatchesAs f (.capture j name n) (.capture (f.new j) name n') := by
  intro s m d P S hP hS R k k' hk t t' ht
  have hS' : Elsewhere f n' S := fun i hi => ⟨(hS i hi).1, fun hmem => (hS i hi).2 (by simp [hmem])⟩
  refine ih s m d P S hP hS' R _ _ (fun u u' hu => ?_) t t' (ht.mono fun i hi => ?_)
  · rw [ht.position, hu.position]
    exact hk _ _ (hu.setOld hj (fun i hi => (hS i hi).1) _)
  · exact hi.imp id fun hi => ⟨hi.1, by simp [hi.2]⟩

theorem matchesAs_modified {change : ModeChange} (ih : MatchesAs f n n') :
    MatchesAs f (.modified change n) (.modified change n') := by
  intro s m d P S hP hS
  exact ih s (m.change change) d P S hP hS

theorem matchesAs_look {l : Look} (ih : MatchesAs f n n') :
    MatchesAs f (.look l n) (.look l n') := by
  intro s m d P S hP hS R k k' hk t t' ht
  have hinner := ih s m (if l.behind then .backward else .forward) (· ≤ s.text.size) S
    (keeps_all _ _) hS (Alike f (· ≤ s.text.size) S) some some (fun u u' hu => .some hu) t t'
    { ht with within := hP.le _ ht.within }
  replace ht : Alike f P S t t' := ht.mono fun i hi => .inl hi
  dsimp only at hinner ⊢
  rw [Node.settled, Node.matcher, Node.matcher]
  dsimp only
  generalize (n.settled (if l.behind then .backward else .forward)).matcher s m
    (if l.behind then .backward else .forward) t some = found at hinner ⊢
  generalize n'.matcher s m (if l.behind then .backward else .forward) t' some = found' at hinner ⊢
  cases hinner with
  | some hu =>
    dsimp only
    split
    · exact .none
    · rw [ht.position]
      exact hk _ _ (hu.move ht.within)
  | none =>
    dsimp only
    split
    · exact hk t t' ht
    · exact .none

/-- The look ahead for an atomic group finds what the group commits to, and captures it. -/
theorem rel_look_capture (ih : MatchesAs f n n') (hS : Elsewhere f (.unfoldedAtomic i n') S)
    {P : Nat → Prop} (hP : Keeps s.text.size .forward P) (m : Mode)
    (ht : Alike f P (fun j => S j ∨ addedIn f (.unfoldedAtomic i n') j) t t') :
    Option.Rel (fun u v => ∃ u', Alike f P S u u' ∧ v = u'.setCapture i ⟨t.position, u.position⟩)
      ((n.settled .forward).matcher s m .forward t some)
      ((Node.capture i none n').matcher s m .forward t' some) := by
  have hS' : Elsewhere f n' S := fun j hj => ⟨(hS j hj).1, fun hmem => (hS j hj).2 (by simp [hmem])⟩
  refine ih s m .forward P S hP hS' _ _ _ (fun u u' hu => .some ⟨u', hu, ?_⟩) t t'
    (ht.mono fun j hj => hj.imp id fun hj => ⟨hj.1, by simp [hj.2]⟩)
  dsimp only
  rw [ht.position, hu.position]

/-- A reference to a capture that is set. -/
theorem matcher_backreference_set {span : Span} (h : t.capture i = some span) {p : Nat}
    (hskip : s.skip? m d p (s.slice span) = some q) :
    (Node.backreference [i]).matcher s m d { t with position := p } k
      = k { t with position := q } := by
  have hcapture : ({ t with position := p } : Thread).capture i = some span := h
  rw [Node.matcher]
  dsimp only
  rw [List.reverse_singleton, List.findSome?_singleton, hcapture]
  dsimp only
  rw [hskip]

/-- A reference to a capture that is not set matches nothing, and succeeds. -/
theorem matcher_backreference_unset (h : t.capture i = none) :
    (Node.backreference [i]).matcher s m d t k = k t := by
  rw [Node.matcher]
  dsimp only
  rw [List.reverse_singleton, List.findSome?_singleton, h]

theorem matcher_look_ahead : (Node.look ⟨false, false⟩ n).matcher s m d t k
    = (n.matcher s m .forward t some).bind fun u => k { u with position := t.position } := by
  rw [Node.matcher]
  dsimp only
  rw [if_neg Bool.false_ne_true]
  cases n.matcher s m .forward t some <;> rfl

theorem matchesAs_atomic (hi : f.IsAdded i) (ih : MatchesAs f n n') :
    MatchesAs f (.atomic n) (.unfoldedAtomic i n') := by
  intro s m d P S hP hS R k k' hk t t' ht
  have hne : ∀ j, S j → 0 < j ∧ j ≠ i := fun j hj =>
    ⟨(hS j hj).1.1, fun he => (hS j hj).2 (by simp [he])⟩
  have hsize := hP.le _ ht.within
  cases d with
  | forward =>
    have hinner := rel_look_capture ih hS (keeps_from s.text.size t.position) m
      { ht with within := ⟨Nat.le_refl _, hsize⟩ }
    show Option.Rel R (((n.settled .forward).matcher s m .forward t some).bind k)
      ((Node.look ⟨false, false⟩ (.capture i none n')).matcher s m .forward t'
        fun u => (Node.backreference [i]).matcher s m .forward u k')
    rw [matcher_look_ahead]
    generalize (n.settled .forward).matcher s m .forward t some = found at hinner ⊢
    generalize (Node.capture i none n').matcher s m .forward t' some = found' at hinner ⊢
    cases hinner with
    | none => exact .none
    | @some u v h =>
      obtain ⟨u', hu, rfl⟩ := h
      have hset := hu.capture_setAdded hi ⟨t.position, u.position⟩
      have hskip := skip?_slice (s := s) m hu.within.1 hu.within.2
      dsimp only [Option.bind_some]
      rw [ht.position, matcher_backreference_set hset hskip]
      refine hk _ _ ?_
      have hmoved := (hu.setAdded hi hne ⟨t.position, u.position⟩).move
        (hP.forward rfl _ _ ht.within hu.within.1 hu.within.2)
      exact hmoved
  | backward =>
    have hinner := rel_look_capture ih hS (keeps_all s.text.size .forward) m
      { ht with within := hsize }
    have hunset : t'.capture i = none := ht.unset i (.inr ⟨hi, by simp⟩)
    show Option.Rel R ((Node.look ⟨false, false⟩ (n.settled .forward)).matcher s m .backward t k)
      ((Node.backreference [i]).matcher s m .backward t'
        fun u => (Node.look ⟨false, false⟩ (.capture i none n')).matcher s m .backward u k')
    rw [matcher_backreference_unset hunset, matcher_look_ahead, matcher_look_ahead]
    generalize (n.settled .forward).matcher s m .forward t some = found at hinner ⊢
    generalize (Node.capture i none n').matcher s m .forward t' some = found' at hinner ⊢
    cases hinner with
    | none => exact .none
    | @some u v h =>
      obtain ⟨u', hu, rfl⟩ := h
      dsimp only [Option.bind_some]
      rw [ht.position]
      exact hk _ _ ((hu.setAdded hi hne ⟨t.position, u.position⟩).move ht.within)

theorem matchesAs_repeated {min : Nat} {max : Option Nat} {isLazy : Bool} (hn : Unfolded f n n')
    (ih : MatchesAs f n n') :
    MatchesAs f (.repeated min max isLazy n) (.repeated min max isLazy n') := by
  intro s m d P S hP hS R k k' hk t t' ht
  have honce : MatchAlike f P S S ((n.settled d).once s m d) (n'.once s m d) := by
    intro R k k' hk u u' hu
    have hclear : Alike f P (fun i => S i ∨ addedIn f n' i) (u.clear n.numbers)
        (u'.clear n'.numbers) :=
      (hu.clear hn).mono fun i hi => hi.imp (fun h => ⟨h, (hS i h).1.1⟩) (·.2)
    have hrel := ih s m d P S hP hS R k k' hk _ _ hclear
    dsimp only [Node.once]
    rwa [Node.numbers_settled]
  have hrest : MatchAlike f P S S
      (fun u k => ((n.settled d).once s m d).upTo isLazy (s.left d u.position) (max.map (· - min)) u k)
      (fun u k => (n'.once s m d).upTo isLazy (s.left d u.position) (max.map (· - min)) u k) := by
    intro R k k' hk u u' hu
    dsimp only
    rw [hu.position]
    exact honce.upTo isLazy _ _ R k k' hk u u' hu
  exact honce.times min R _ _ (hrest R k k' hk) t t' (ht.mono fun i hi => .inl hi)

theorem matchesAs_sequence {a a' : Node} (hnodup : (a'.numbers ++ b'.numbers).Nodup)
    (iha : MatchesAs f a a') (ihb : MatchesAs f b b') :
    MatchesAs f (.sequence a b) (.sequence a' b') := by
  intro s m d P S hP hS R k k' hk t t' ht
  rw [List.nodup_append] at hnodup
  -- The captures of the part that comes second have to be unset until then.
  have hboth : ∀ {x y : Node}, (∀ i ∈ y.numbers, i ∉ x.numbers) →
      Elsewhere f x S → Elsewhere f x fun i => S i ∨ addedIn f y i := by
    intro x y hxy hx i hi
    exact hi.elim (hx i) fun hy => ⟨hy.1, hxy i hy.2⟩
  have hSa : Elsewhere f a' S := fun i hi => ⟨(hS i hi).1, fun h => (hS i hi).2 (by simp [h])⟩
  have hSb : Elsewhere f b' S := fun i hi => ⟨(hS i hi).1, fun h => (hS i hi).2 (by simp [h])⟩
  cases d with
  | forward =>
    have hfirst := hboth (fun i hb ha => hnodup.2.2 i ha i hb rfl) hSa
    refine iha s m .forward P _ hP hfirst R _ _ (ihb s m .forward P S hP hSb R k k' hk) t t'
      (ht.mono fun i hi => ?_)
    rcases hi with (hi | hi) | hi
    · exact .inl hi
    · exact .inr ⟨hi.1, by simp [hi.2]⟩
    · exact .inr ⟨hi.1, by simp [hi.2]⟩
  | backward =>
    have hfirst := hboth (fun i ha hb => hnodup.2.2 i ha i hb rfl) hSb
    refine ihb s m .backward P _ hP hfirst R _ _ (iha s m .backward P S hP hSa R k k' hk) t t'
      (ht.mono fun i hi => ?_)
    rcases hi with (hi | hi) | hi
    · exact .inl hi
    · exact .inr ⟨hi.1, by simp [hi.2]⟩
    · exact .inr ⟨hi.1, by simp [hi.2]⟩

theorem matchesAs_alternation {a a' : Node} (iha : MatchesAs f a a') (ihb : MatchesAs f b b') :
    MatchesAs f (.alternation a b) (.alternation a' b') := by
  intro s m d P S hP hS R k k' hk t t' ht
  have hSa : Elsewhere f a' S := fun i hi => ⟨(hS i hi).1, fun h => (hS i hi).2 (by simp [h])⟩
  have hSb : Elsewhere f b' S := fun i hi => ⟨(hS i hi).1, fun h => (hS i hi).2 (by simp [h])⟩
  refine Option.Rel.orElse (iha s m d P S hP hSa R k k' hk t t' (ht.mono fun i hi => ?_))
    (ihb s m d P S hP hSb R k k' hk t t' (ht.mono fun i hi => ?_))
  · exact hi.imp id fun hi => ⟨hi.1, by simp [hi.2]⟩
  · exact hi.imp id fun hi => ⟨hi.1, by simp [hi.2]⟩

/-- **The unfolded tree matches as the settled one does.** -/
theorem Unfolded.matchesAs (h : Unfolded f n n') (hnodup : n'.numbers.Nodup) : MatchesAs f n n' := by
  induction h with
  | leaf h => exact matchesAs_leaf h
  | backreference h => exact matchesAs_backreference h
  | capture h hbody ih => exact matchesAs_capture h (ih (List.nodup_cons.1 hnodup).2)
  | atomic h hbody ih =>
    rw [Node.numbers_unfoldedAtomic] at hnodup
    exact matchesAs_atomic h (ih (List.nodup_cons.1 hnodup).2)
  | modified hbody ih => exact matchesAs_modified (ih hnodup)
  | look hbody ih => exact matchesAs_look (ih hnodup)
  | repeated hbody ih => exact matchesAs_repeated hbody (ih hnodup)
  | sequence ha hb iha ihb =>
    rw [Node.numbers_sequence] at hnodup
    have hparts := List.nodup_append.1 hnodup
    exact matchesAs_sequence hnodup (iha hparts.1) (ihb hparts.2.1)
  | alternation ha hb iha ihb =>
    rw [Node.numbers_alternation] at hnodup
    have hparts := List.nodup_append.1 hnodup
    exact matchesAs_alternation (iha hparts.1) (ihb hparts.2.1)

end

end Diglot.Host
