import Diglot.Expression
import Diglot.Proofs.Reduction.UnfoldedTree

/-!
# Matching after atomic groups are unfolded

The host matches the unfolding of a pattern as it would match the pattern if it had atomic groups
(`unfoldAtomic_matches_alike`), with the captures under the numbers that the reduction gives them.
This holds as long as no atomic group is matched from right to left. In a look behind the reference
is matched before the look ahead that sets its capture, so there only the look ahead is left
(`unfoldAtomic_matches_settled`).
-/

namespace Diglot.Host

/-! ## Matches of unfolded trees -/

theorem Thread.capture_replicate (p n k : Nat) :
    (⟨p, List.replicate n none⟩ : Thread).capture k = none := by
  unfold Thread.capture
  rw [List.getD_eq_getElem?_getD, List.getElem?_replicate]
  split <;> rfl

theorem Found.capture_pos {m : Found} {k : Nat} (hk : 0 < k) :
    m.capture k = m.captures.getD (k - 1) none :=
  if_neg (by omega)

theorem Option.Rel.map {R : Thread → Thread → Prop} {Q : Found → Found → Prop} {o o' : Option Thread}
    {toFound : Thread → Found} (h : Option.Rel R o o')
    (hfound : ∀ t t', R t t' → Q (toFound t) (toFound t')) :
    Option.Rel Q (o.map toFound) (o'.map toFound) := by
  cases h with
  | some h => exact .some (hfound _ _ h)
  | none => exact .none

/-- Two matches cover the same, and so do their `count` captures if the second has them under the
numbers `new?`. -/
structure SameMatch (new? : Nat → Option Nat) (count : Nat) (m m' : Found) : Prop where
  span : m'.span = m.span
  captures : ∀ k, 0 < k → k ≤ count → ∃ i, new? k = some i ∧ m'.capture i = m.capture k

/-- **The unfolded tree has the matches of the settled one.** -/
theorem Unfolded.matchAt_rel {f : Renumbering} {root root' : Node} (h : Unfolded f root root')
    (hcount : root.captures.length = f.count) (htotal : root'.captures.length = f.total)
    (hnodup : root'.numbers.Nodup) {new? : Nat → Option Nat}
    (hnew : ∀ k, f.IsOld k → new? k = some (f.new k)) (flags : Flags) (text : Array Char) {p : Nat}
    (hp : p ≤ text.size) : Option.Rel (SameMatch new? root.captures.length)
      (Regex.matchAt ⟨root.settled .forward, flags⟩ text p) (Regex.matchAt ⟨root', flags⟩ text p) := by
  have hsettled : (root.settled .forward).captures.length = f.count := by
    rw [← Node.length_numbers, Node.numbers_settled, Node.length_numbers, hcount]
  -- Nothing is captured at the start.
  have hstart : Alike f (· ≤ text.size) (fun i => False ∨ addedIn f root' i)
      ⟨p, List.replicate (root.settled .forward).captures.length none⟩
      ⟨p, List.replicate root'.captures.length none⟩ := {
    position := rfl
    within := hp
    length := by simp [hsettled]
    length' := by simp [htotal]
    captures := fun k _ => by rw [Thread.capture_replicate, Thread.capture_replicate]
    unset := fun i _ => Thread.capture_replicate _ _ i }
  have hrel := h.matchesAs hnodup ⟨flags.grammar, text⟩ flags.mode .forward (· ≤ text.size)
    (fun _ => False) (keeps_all _ _) (fun i hi => hi.elim) (Alike f (· ≤ text.size) fun _ => False)
    some some (fun u u' hu => .some hu) _ _ hstart
  refine Option.Rel.map hrel fun t t' ht => ⟨by rw [ht.position], fun k hk hk' => ?_⟩
  have hold : f.IsOld k := ⟨hk, hcount ▸ hk'⟩
  refine ⟨f.new k, hnew k hold, ?_⟩
  rw [Found.capture_pos hk, Found.capture_pos (f.bounds k hold.1 hold.2).1]
  exact ht.captures k hold

end Diglot.Host

namespace Diglot.Reduction

open Emitted Host

/-! ## Matches of unfolded patterns -/

/-- **Unfolding atomic groups keeps every match.** Let the host read a pattern with atomic groups,
none of which is matched from right to left, and let the scanner divide it. Then the atomic groups
can be unfolded, the host reads what they are unfolded to, and at every position of a text it has
the same match or none either. Captures cover the same under the numbers that the reduction gives
them, and under these they are hidden if they were before. -/
theorem unfoldAtomic_matches_alike {flags : Host.Flags} (hg : flags.grammar.isStrict) {text : Text}
    {tokens : List Emitted.Token} (hscan : scan text = .ok tokens) {root : Node}
    (hread : Node.read? flags.grammar true text = some root)
    (hbehind : root.hasAtomicBehind false = false) (l : CaptureLayout) :
    ∃ d root', unfoldAtomic ⟨text, l⟩ = .ok d ∧ Node.read? flags.grammar false d.text = some root' ∧
      (∀ (subject : Array Char) (p : Nat), p ≤ subject.size →
        Option.Rel (SameMatch (unfoldedNumber? text) root.captures.length)
          (Regex.matchAt ⟨root, flags⟩ subject p) (Regex.matchAt ⟨root', flags⟩ subject p)) ∧
      ∀ k i, 0 < k → k ≤ root.captures.length → unfoldedNumber? text k = some i →
        (i ∈ d.layout.hidden ↔ k ∈ l.hidden) := by
  obtain ⟨d, root', f, h⟩ := exists_unfoldedPattern hg hscan hread l
  have hsettled : root.settled .forward = root := root.settled_eq false hbehind
  refine ⟨d, root', h.unfold, h.read, fun subject p hp => ?_, fun k i hk hk' hi => ?_⟩
  · have hrel := h.tree.matchAt_rel h.count h.total h.nodup h.number flags subject hp
    rwa [hsettled] at hrel
  · have hold : f.IsOld k := ⟨hk, h.count ▸ hk'⟩
    rw [h.number k hold] at hi
    cases hi
    exact h.hidden k hold

/-- Atomic groups that are repeated, nested and negated, and a reference that gets a new number. -/
theorem unfoldAtomic_matches_alike_example :
    ∃ text tokens root d root', text = "(?>(a)|(?>ab))+(?!(?>b)c)\\1".toList ∧ scan text = .ok tokens ∧
      Node.read? .unicode true text = some root ∧ root.hasAtomicBehind false = false ∧
      unfoldAtomic ⟨text, {}⟩ = .ok d ∧ Node.read? .unicode false d.text = some root' ∧
      Option.Rel (SameMatch (unfoldedNumber? text) root.captures.length)
        (Regex.matchAt ⟨root, ⟨.unicode, {}⟩⟩ #['a', 'a', 'b'] 0)
        (Regex.matchAt ⟨root', ⟨.unicode, {}⟩⟩ #['a', 'a', 'b'] 0) := by
  have hcheck : (Node.read? .unicode true "(?>(a)|(?>ab))+(?!(?>b)c)\\1".toList).any
      (!·.hasAtomicBehind false) := by decide +kernel
  obtain ⟨root, hread, hbehind⟩ := (Option.any_eq_true _ _).1 hcheck
  rw [Bool.not_eq_true'] at hbehind
  obtain ⟨tokens, hscan⟩ : ∃ tokens, scan "(?>(a)|(?>ab))+(?!(?>b)c)\\1".toList = .ok tokens := by
    decide +kernel
  obtain ⟨d, root', hd, hread', hmatch, -⟩ :=
    @unfoldAtomic_matches_alike ⟨.unicode, {}⟩ rfl _ _ hscan _ hread hbehind {}
  exact ⟨_, tokens, root, d, root', rfl, hscan, hread, hbehind, hd, hread',
    hmatch #['a', 'a', 'b'] 0 (by decide)⟩

/-- **An unfolded pattern matches as the settled one.** Let the host read a pattern with atomic
groups, and let the scanner divide it. Then the atomic groups can be unfolded, the host reads what
they are unfolded to, and at every position of a text it has the match of the pattern in which
every atomic group that is matched from right to left is only a look ahead. -/
theorem unfoldAtomic_matches_settled {flags : Host.Flags} (hg : flags.grammar.isStrict) {text : Text}
    {tokens : List Emitted.Token} (hscan : scan text = .ok tokens) {root : Node}
    (hread : Node.read? flags.grammar true text = some root) (l : CaptureLayout) :
    ∃ d root', unfoldAtomic ⟨text, l⟩ = .ok d ∧ Node.read? flags.grammar false d.text = some root' ∧
      ∀ (subject : Array Char) (p : Nat), p ≤ subject.size →
        Option.Rel (SameMatch (unfoldedNumber? text) root.captures.length)
          (Regex.matchAt ⟨root.settled .forward, flags⟩ subject p)
          (Regex.matchAt ⟨root', flags⟩ subject p) := by
  obtain ⟨d, root', f, h⟩ := exists_unfoldedPattern hg hscan hread l
  exact ⟨d, root', h.unfold, h.read, fun subject p hp =>
    h.tree.matchAt_rel h.count h.total h.nodup h.number flags subject hp⟩

/-- An atomic group in a look behind, before another one that is not in it. -/
theorem unfoldAtomic_matches_settled_example :
    ∃ text tokens root d root', text = "(?<=(?>a))(?>b|bc)".toList ∧ scan text = .ok tokens ∧
      Node.read? .unicode true text = some root ∧ root.hasAtomicBehind false = true ∧
      unfoldAtomic ⟨text, {}⟩ = .ok d ∧ Node.read? .unicode false d.text = some root' ∧
      Option.Rel (SameMatch (unfoldedNumber? text) root.captures.length)
        (Regex.matchAt ⟨root.settled .forward, ⟨.unicode, {}⟩⟩ #['a', 'b'] 1)
        (Regex.matchAt ⟨root', ⟨.unicode, {}⟩⟩ #['a', 'b'] 1) := by
  have hcheck : (Node.read? .unicode true "(?<=(?>a))(?>b|bc)".toList).any
      (·.hasAtomicBehind false) := by decide +kernel
  obtain ⟨root, hread, hbehind⟩ := (Option.any_eq_true _ _).1 hcheck
  obtain ⟨tokens, hscan⟩ : ∃ tokens, scan "(?<=(?>a))(?>b|bc)".toList = .ok tokens := by
    decide +kernel
  obtain ⟨d, root', hd, hread', hmatch⟩ :=
    @unfoldAtomic_matches_settled ⟨.unicode, {}⟩ rfl _ _ hscan _ hread {}
  exact ⟨_, tokens, root, d, root', rfl, hscan, hread, hbehind, hd, hread',
    hmatch #['a', 'b'] 1 (by decide)⟩

/-- In a look behind the unfolded group loses its match: nothing has been captured yet when the
reference is matched, and the look ahead that is left looks at what follows. So the whole conversion
finds nothing in a text where the pattern matches. -/
theorem atomic_behind_loses_match :
    (do
      let root ← Node.read? .unicode true "(?<=(?>a))b".toList
      Regex.matchAt ⟨root, ⟨.unicode, {}⟩⟩ #['a', 'b'] 1) = some ⟨⟨1, 2⟩, []⟩ ∧
    (do
      let d ← (unfoldAtomic ⟨"(?<=(?>a))b".toList, {}⟩).toOption
      let root ← Node.read? .unicode false d.text
      return Regex.matchAt ⟨root, ⟨.unicode, {}⟩⟩ #['a', 'b'] 1) = some none ∧
    (do
      let c ← Conversion.ofSource { strict := true } "(?<=(?>a))b"
      let x ← Expression.ofConversion c
      (x.findAt "ab" 0).2) = .ok none := by
  decide +kernel

end Diglot.Reduction
