import Diglot.Host.Regex
import Diglot.Proofs.Host.Unfolding

/-!
# Matches lie within the text

A matcher hands to its continuation only threads at positions that its direction allows. So a match
that starts in the text ends in the text, and not before its start.
-/

namespace Diglot.Host

variable {s : Subject} {d : Direction} {P : Nat → Prop}

theorem eq_some_of_orElse {α : Type} {o : Option α} {p : Unit → Option α} {a : α}
    (h : o.orElse p = some a) : o = some a ∨ p () = some a := by
  cases o with
  | none => exact .inr h
  | some b => exact .inl h

/-- From a position that satisfies `P` a matcher succeeds only through such positions. -/
def Matcher.Stays (P : Nat → Prop) (a : Matcher) : Prop :=
  ∀ t k u, P t.position → a t k = some u → ∃ v, P v.position ∧ k v = some u

namespace Matcher.Stays

variable {a b : Matcher}

theorem char (hP : Keeps s.text.size d P) (p : Char → Bool) : (Matcher.char s d p).Stays P := by
  intro t k u ht h
  unfold Matcher.char at h
  cases hnext : s.next? d t.position with
  | none =>
    rw [hnext] at h
    cases h
  | some found =>
    obtain ⟨c, q⟩ := found
    rw [hnext] at h
    dsimp only at h
    split at h
    · exact ⟨_, hP.next? ht hnext, h⟩
    · cases h

theorem orElse (ha : a.Stays P) (hb : b.Stays P) : (a.orElse b).Stays P := by
  intro t k u ht h
  rcases eq_some_of_orElse h with h | h
  · exact ha t k u ht h
  · exact hb t k u ht h

theorem andThen (ha : a.Stays P) (hb : b.Stays P) : (a.andThen b).Stays P := by
  intro t k u ht h
  obtain ⟨v, hv, h⟩ := ha t _ u ht h
  exact hb v k u hv h

theorem commit (ha : a.Stays P) : a.commit.Stays P := by
  intro t k u ht h
  obtain ⟨v, hat, hk⟩ := Option.bind_eq_some_iff.1 h
  obtain ⟨w, hw, heq⟩ := ha t some v ht hat
  cases heq
  exact ⟨v, hw, hk⟩

theorem times (ha : a.Stays P) : ∀ count, (a.times count).Stays P
  | 0 => fun t _ _ ht h => ⟨t, ht, h⟩
  | count + 1 => ha.andThen (ha.times count)

theorem upTo (ha : a.Stays P) (isLazy : Bool) : ∀ fuel max, (a.upTo isLazy fuel max).Stays P
  | 0, _ => fun t _ _ ht h => ⟨t, ht, h⟩
  | fuel + 1, max => by
    intro t k u ht h
    unfold Matcher.upTo at h
    split at h
    · exact ⟨t, ht, h⟩
    -- one more iteration, which then goes on, or none
    have hmore : ∀ {u}, (a t fun v => if v.position = t.position then none
        else a.upTo isLazy fuel (max.map (· - 1)) v k) = some u → ∃ v, P v.position ∧ k v = some u := by
      intro u h
      obtain ⟨v, hv, h⟩ := ha t _ u ht h
      split at h
      · cases h
      · exact ha.upTo isLazy fuel _ v k u hv h
    dsimp only at h
    split at h
    · rcases eq_some_of_orElse h with h | h
      · exact ⟨t, ht, h⟩
      · exact hmore h
    · rcases eq_some_of_orElse h with h | h
      · exact hmore h
      · exact ⟨t, ht, h⟩

end Matcher.Stays

/-- **Matching does not leave the positions that its direction keeps.** -/
theorem Node.matcher_stays (n : Node) (m : Mode) (d : Direction) (hP : Keeps s.text.size d P) :
    (n.matcher s m d).Stays P := by
  induction n generalizing m d P with
  | empty => exact fun t k u ht h => ⟨t, ht, h⟩
  | any | set => exact .char hP _
  | member text cs =>
    intro t k u ht h
    rw [Node.matcher] at h
    dsimp only at h
    split at h
    next q hskip =>
      obtain ⟨cs, -, hq⟩ := Option.bind_eq_some_iff.1 hskip
      split at h
      · exact ⟨_, hP.skip? ht hq, h⟩
      · cases h
    next => cases h
  | edge e =>
    intro t k u ht h
    rw [Node.matcher] at h
    dsimp only at h
    split at h
    · exact ⟨t, ht, h⟩
    · cases h
  | backreference numbers =>
    intro t k u ht h
    rw [Node.matcher] at h
    dsimp only at h
    split at h
    next => exact ⟨t, ht, h⟩
    next span hspan =>
      split at h
      next q hskip => exact ⟨_, hP.skip? ht hskip, h⟩
      next => cases h
  | capture number name body ih =>
    intro t k u ht h
    obtain ⟨v, hv, h⟩ := ih m d hP t _ u ht h
    exact ⟨v.setCapture number _, hv, h⟩
  | atomic body ih => exact (ih m d hP).commit
  | modified change body ih => exact ih (m.change change) d hP
  | look l body ih =>
    -- the position after a look around is the one before it
    intro t k u ht h
    rw [Node.matcher] at h
    dsimp only at h
    split at h <;> split at h
    · cases h
    · refine ⟨_, ?_, h⟩
      exact ht
    · exact ⟨t, ht, h⟩
    · cases h
  | repeated min max isLazy body ih =>
    have honce : (body.once s m d).Stays P := fun t k u ht h =>
      ih m d hP (t.clear body.numbers) k u ht h
    exact (honce.times min).andThen fun t k u ht h => honce.upTo isLazy _ _ t k u ht h
  | sequence a b iha ihb =>
    cases d with
    | forward => exact (iha m _ hP).andThen (ihb m _ hP)
    | backward => exact (ihb m _ hP).andThen (iha m _ hP)
  | alternation a b iha ihb =>
    rw [matcher_alternation]
    exact (iha m d hP).orElse (ihb m d hP)

/-- A match ends in the text, and not before its start. -/
theorem Regex.span_of_matchAt {r : Regex} {text : Array Char} {p : Nat} {f : Found}
    (hp : p ≤ text.size) (h : r.matchAt text p = some f) :
    f.span.start = p ∧ p ≤ f.span.stop ∧ f.span.stop ≤ text.size := by
  obtain ⟨u, hu, rfl⟩ := Option.map_eq_some_iff.1 h
  have hstays := r.root.matcher_stays (s := ⟨r.flags.grammar, text⟩) r.flags.mode .forward
    (keeps_from text.size p)
  obtain ⟨v, hv, heq⟩ := hstays _ some u ⟨Nat.le_refl p, hp⟩ hu
  cases heq
  exact ⟨rfl, hv⟩

end Diglot.Host
