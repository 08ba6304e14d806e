import Diglot.Host.Matcher
import Diglot.Proofs.Host.Steady

/-!
# Nodes that match one character

A node may match exactly the characters of a set, one at a time, in either direction. Alternatives
of such nodes match the union, a look ahead before such a node matches what both match, and a
negative look ahead before any character matches the complement. Inside a look behind the character
is taken first and then looked at again from its other side.

All this holds in any modes. What a set matches depends on whether the mode ignores case, unless
folding keeps the set.
-/

namespace Diglot.Host

/-! ## Matchers -/

/-- The character before a position is the one after the position that lies before it. -/
theorem Subject.next?_forward_of_backward {s : Subject} {p q : Nat} {c : Char}
    (h : s.next? .backward p = some (c, q)) : s.next? .forward q = some (c, p) := by
  unfold Subject.next? Subject.before? at h
  by_cases hp : p = 0
  · simp [hp] at h
  · obtain ⟨c', hc, heq⟩ := Option.map_eq_some_iff.1 h
    rw [if_neg hp] at hc
    cases heq
    have hq : p - 1 + 1 = p := by omega
    show (s.text[p - 1]?).map (·, p - 1 + 1) = some (c, p)
    rw [hc, hq]
    rfl

namespace Matcher

variable (s : Subject) (d : Direction) (p q : Char → Bool)

/-- A second try with the same character does not help. -/
theorem char_orElse_char :
    (char s d p).orElse (char s d q) = char s d fun c => p c || q c := by
  funext t k
  unfold orElse char
  cases s.next? d t.position with
  | none => rfl
  | some found =>
    obtain ⟨c, position⟩ := found
    by_cases hp : p c <;> by_cases hq : q c <;> simp [hp, hq]

/-- Looking ahead for a character that satisfies `p`. -/
theorem char_forward_some (t : Thread) :
    char s .forward p t some = (s.next? .forward t.position).bind fun (c, position) =>
      if p c then some { t with position } else none := by
  unfold char
  cases s.next? .forward t.position <;> rfl

end Matcher

namespace Node

/-- In a mode that minds case, the node matches one character, which has to satisfy `p`. -/
def IsChar (g : Grammar) (p : Char → Bool) (n : Node) : Prop :=
  ∀ (text : Array Char) (m : Mode) (d : Direction), m.ignoreCase = false →
    n.matcher ⟨g, text⟩ m d = Matcher.char ⟨g, text⟩ d p

/-- In the given modes, the node matches one character, which has to satisfy `p`. -/
def IsCharIn (modes : Mode → Prop) (g : Grammar) (p : Char → Bool) (n : Node) : Prop :=
  ∀ (text : Array Char) (m : Mode) (d : Direction), modes m →
    n.matcher ⟨g, text⟩ m d = Matcher.char ⟨g, text⟩ d p

variable {modes : Mode → Prop} {g : Grammar} {p q : Char → Bool} {a b : Node}

/-- A set matches its members, if folding keeps it or no mode ignores case. -/
theorem isCharIn_set (negated : Bool) {cs : CharSet}
    (h : ∀ m, modes m → m.ignoreCase = true → g.isStrict = true ∧ cs.Steady) :
    (set negated cs).IsCharIn modes g fun c => negated != cs.has id isAsciiWord c := by
  intro text m d hm
  rw [matcher]
  congr 1
  funext c
  cases hcase : m.ignoreCase with
  | true =>
    obtain ⟨hg, hs⟩ := h m hm hcase
    exact CharSet.accepts_of_steady hg hs m negated c
  | false =>
    have hword : m.isWord g = isAsciiWord := by
      funext c
      simp [Mode.isWord, hcase]
    simp only [CharSet.accepts, hcase, hword]

theorem IsCharIn.alternation (ha : a.IsCharIn modes g p) (hb : b.IsCharIn modes g q) :
    (alternation a b).IsCharIn modes g fun c => p c || q c := by
  intro text m d hm
  rw [matcher, ha text m d hm, hb text m d hm, Matcher.char_orElse_char]

/-- Alternatives match what one of them matches. -/
theorem isCharIn_ofAlternatives {α : Type} (node : α → Node) (has : α → Char → Bool) :
    ∀ xs : List α, xs ≠ [] → (∀ x ∈ xs, (node x).IsCharIn modes g (has x)) →
      (ofAlternatives (xs.map node)).IsCharIn modes g fun c => xs.any (has · c)
  | [], hne, _ => absurd rfl hne
  | [x], _, h => by simpa [ofAlternatives] using h x (by simp)
  | x :: y :: xs, _, h => by
    have hrest := isCharIn_ofAlternatives node has (y :: xs) (by simp) fun z hz =>
      h z (List.mem_cons_of_mem x hz)
    simpa [ofAlternatives] using (h x (by simp)).alternation hrest

/-- A look ahead at a character, negative or not, leaves the thread as it is. -/
theorem look_ahead (ha : a.IsCharIn modes g p) (negated : Bool) (text : Array Char) {m : Mode}
    (hm : modes m) (d : Direction) (t : Thread) (k : Continuation) :
    (look ⟨false, negated⟩ a).matcher ⟨g, text⟩ m d t k =
      if (((⟨g, text⟩ : Subject).next? .forward t.position).any fun x => p x.1) = negated then none
      else k t := by
  have hinner := Matcher.char_forward_some ⟨g, text⟩ p t
  rw [matcher]
  dsimp only
  rw [if_neg Bool.false_ne_true, ha text m .forward hm, hinner]
  cases (⟨g, text⟩ : Subject).next? .forward t.position with
  | none => cases negated <;> rfl
  | some found =>
    obtain ⟨c, position⟩ := found
    rw [Option.bind_some, Option.any_some]
    by_cases hp : p c <;> cases negated <;> simp [hp]

/-- A look ahead before a character, whichever of the two is done first. -/
theorem sequence_look_ahead (ha : a.IsCharIn modes g p) (hb : b.IsCharIn modes g q) (negated : Bool) :
    (sequence (look ⟨false, negated⟩ a) b).IsCharIn modes g fun c => (negated != p c) && q c := by
  intro text m d hm
  funext t k
  cases d with
  | forward =>
    show (look ⟨false, negated⟩ a).matcher ⟨g, text⟩ m .forward t
      (fun u => b.matcher ⟨g, text⟩ m .forward u k) = _
    rw [look_ahead ha negated text hm, hb text m .forward hm]
    unfold Matcher.char
    cases (⟨g, text⟩ : Subject).next? .forward t.position with
    | none => simp
    | some found =>
      obtain ⟨c, position⟩ := found
      by_cases hp : p c <;> by_cases hq : q c <;> cases negated <;> simp [hp, hq]
  | backward =>
    show b.matcher ⟨g, text⟩ m .backward t
      (fun u => (look ⟨false, negated⟩ a).matcher ⟨g, text⟩ m .backward u k) = _
    rw [hb text m .backward hm]
    unfold Matcher.char
    cases hn : (⟨g, text⟩ : Subject).next? .backward t.position with
    | none => rfl
    | some found =>
      obtain ⟨c, position⟩ := found
      -- The character that was taken stands after the position that is now reached.
      have hahead := Subject.next?_forward_of_backward hn
      dsimp only
      rw [look_ahead ha negated text hm]
      rw [hahead, Option.any_some]
      by_cases hp : p c <;> by_cases hq : q c <;> cases negated <;> simp [hp, hq]

end Node

end Diglot.Host
