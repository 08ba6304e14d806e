import Diglot.Host.Regex
import Diglot.Proofs.Host.OneChar
import Diglot.Proofs.Host.Reading

/-!
# Texts that match one character

A text may be read, wherever it stands, as something that matches exactly the characters of a set,
one at a time. Such texts are put together as the writer does it: as alternatives, with a look ahead
before them, and with a negative look ahead before any character.
-/

namespace Diglot.Host

variable {modes : Mode → Prop} {g : Grammar} {p q : Char → Bool} {text text' : List Char}

theorem Node.hasDistinctNames_of_captures (n : Node) (h : n.captures = []) : n.hasDistinctNames := by
  induction n with
  | empty | any | set | member | edge | backreference => rfl
  | capture number name body ih => cases h
  | atomic body ih | modified change body ih | look l body ih | repeated min max isLazy body ih =>
    rw [captures] at h
    exact ih h
  | sequence a b iha ihb =>
    rw [captures, List.append_eq_nil_iff] at h
    rw [hasDistinctNames, iha h.1, ihb h.2]
    simp [names, h.1]
  | alternation a b iha ihb =>
    rw [captures, List.append_eq_nil_iff] at h
    rw [hasDistinctNames, iha h.1, ihb h.2]
    rfl

/-! ## Texts -/

/-- Wherever the text stands outside classes, it is read as what matches one character, which has to
satisfy `p`. -/
def MatchesChar (g : Grammar) (text : List Char) (p : Char → Bool) : Prop :=
  ∃ items, Reads g text items ∧ items ≠ [] ∧ (∀ i ∈ items, i.node.captures = []) ∧
    (sequenceOf items).IsChar g p

/-- Wherever the text stands outside classes, it is read as what matches one character in the given
modes. The character has to satisfy `p`. -/
def MatchesCharIn (modes : Mode → Prop) (g : Grammar) (text : List Char) (p : Char → Bool) : Prop :=
  ∃ items, Reads g text items ∧ items ≠ [] ∧ (∀ i ∈ items, i.node.captures = []) ∧
    (sequenceOf items).IsCharIn modes g p

theorem MatchesCharIn.congr (h : MatchesCharIn modes g text p) (hpq : ∀ c, p c = q c) :
    MatchesCharIn modes g text q := by
  have heq : p = q := funext hpq
  exact heq ▸ h

theorem MatchesChar.congr (h : MatchesChar g text p) (hpq : ∀ c, p c = q c) :
    MatchesChar g text q :=
  MatchesCharIn.congr h hpq

/-- A single item. -/
theorem Reads.matchesCharIn {item : Item} (h : Reads g text [item]) (hn : item.node.captures = [])
    (hc : item.node.IsCharIn modes g p) : MatchesCharIn modes g text p :=
  ⟨[item], h, by simp, by simpa using hn, hc⟩

theorem captures_sequenceOf {items : List Item} (h : ∀ i ∈ items, i.node.captures = []) :
    (sequenceOf items).captures = [] := by
  rw [sequenceOf, Node.captures_ofSequence, List.flatMap_eq_nil_iff]
  intro n hn
  obtain ⟨i, hi, rfl⟩ := List.mem_map.1 hn
  exact h i hi

/-- A text of its own is read as a pattern. -/
theorem MatchesCharIn.read? (h : MatchesCharIn modes g text p) (extended : Bool) :
    ∃ n, Node.read? g extended text = some n ∧ n.captures = [] ∧ n.IsCharIn modes g p := by
  obtain ⟨items, ⟨ts, hlex, hnames, hread⟩, hne, hcaptures, hchar⟩ := h
  have htokens : ∀ x : Dialect, x.grammar = g → tokens? x text = some ts := by
    intro x hx
    have hall := hlex x hx []
    unfold LexesBefore at hall
    rw [List.append_nil] at hall
    simpa [tokens?] using hall
  refine ⟨sequenceOf items, ?_, captures_sequenceOf hcaptures, hchar⟩
  have hdistinct := Node.hasDistinctNames_of_captures _ (captures_sequenceOf hcaptures)
  have hbody : (({} : Reading).pushAll items).group.body = sequenceOf items := by
    simp [Reading.pushAll, OpenGroup.body, OpenGroup.current, Node.ofAlternatives, sequenceOf]
  have hfinish : (({} : Reading).pushAll items).finish = some (sequenceOf items) := by
    rw [Reading.finish, hbody, hdistinct]
    rfl
  rw [Node.read?, Dialect.of?, htokens _ rfl]
  show (do
    let ts ← tokens? _ text
    let r : Reading ← ts.foldlM (Reading.step g (captureNames ts)) {}
    r.finish) = _
  rw [htokens _ rfl]
  show (do
    let r : Reading ← ts.foldlM (Reading.step g (captureNames ts)) {}
    r.finish) = _
  rw [hread _ {} rfl]
  exact hfinish

theorem MatchesChar.read? (h : MatchesChar g text p) (extended : Bool) :
    ∃ n, Node.read? g extended text = some n ∧ n.IsChar g p := by
  obtain ⟨n, hn, -, hchar⟩ := MatchesCharIn.read? h extended
  exact ⟨n, hn, hchar⟩

/-- The match of one character at a position, if it satisfies `p`. -/
def charMatch (p : Char → Bool) (subject : Array Char) (start : Nat) : Option Found :=
  subject[start]?.bind fun c => if p c then some ⟨⟨start, start + 1⟩, []⟩ else none

/-- A text of its own is compiled to what matches one character. -/
theorem MatchesCharIn.compile? (h : MatchesCharIn modes g text p) {letters : List Char}
    (hg : (Flags.ofLetters letters).grammar = g) (hm : modes (Flags.ofLetters letters).mode) :
    ∃ r, Regex.compile? text letters = some r ∧
      ∀ subject start, r.matchAt subject start = charMatch p subject start := by
  obtain ⟨n, hn, hcaptures, hchar⟩ := h.read? false
  refine ⟨⟨n, Flags.ofLetters letters⟩, ?_, fun subject start => ?_⟩
  · rw [Regex.compile?, hg, hn]
    rfl
  · simp only [Regex.matchAt, hg, hcaptures, hchar subject _ .forward hm, charMatch,
      Matcher.char_forward_some]
    show ((subject[start]?.map (·, start + 1)).bind _).map _ = _
    cases subject[start]? with
    | none => rfl
    | some c =>
      dsimp only [Option.map_some, Option.bind_some]
      split <;> rfl

/-- A look ahead before a character. -/
theorem MatchesCharIn.ahead (h : MatchesCharIn modes g text p)
    (h' : MatchesCharIn modes g text' q) (negated : Bool) : MatchesCharIn modes g ('(' :: '?' :: (if negated then '!' else '=') :: (text ++ ')' :: text'))
      fun c => (negated != p c) && q c := by
  obtain ⟨items, hreads, hne, hcaptures, hchar⟩ := h
  obtain ⟨items', hreads', hne', hcaptures', hchar'⟩ := h'
  have hopening : ∀ x : Dialect, x.grammar = g →
      Lexes x 0 0 ['(', '?', if negated then '!' else '='] [.groupOpen (.look ⟨false, negated⟩)] := by
    intro x _
    cases negated <;> exact Lexes.token fun _ => rfl
  have hlook : Reads g (['(', '?', if negated then '!' else '='] ++ (text ++ [')']))
      [⟨.look ⟨false, negated⟩ (sequenceOf items), !g.isStrict⟩] := by
    refine hreads.body.group hopening (by simp) fun o ho hbody => ?_
    simp [OpenGroup.close, ho, hbody, Node.ofAlternatives]
  have hall := hlook.append hreads'
  rw [List.append_assoc, List.append_assoc] at hall
  refine ⟨_, hall, by simp, ?_, ?_⟩
  · intro i hi
    rcases List.mem_append.1 hi with hi | hi
    · rw [List.mem_singleton.1 hi]
      exact captures_sequenceOf hcaptures
    · exact hcaptures' i hi
  · obtain ⟨i, rest, rfl⟩ := List.exists_cons_of_ne_nil hne'
    exact Node.sequence_look_ahead hchar hchar' negated

/-- Alternatives with bars between them, in a group that has just been opened. -/
theorem readsBody_bars {α : Type} (text : α → List Char) (items : α → List Item) :
    ∀ xs : List α, xs ≠ [] → (∀ x ∈ xs, Reads g (text x) (items x)) →
      ReadsBody g (['|'].intercalate (xs.map text)) (xs.map fun x => sequenceOf (items x))
  | [], hne, _ => absurd rfl hne
  | [x], _, h => by simpa [List.intercalate] using (h x (by simp)).body
  | x :: y :: xs, _, h => by
    have hrest := readsBody_bars text items (y :: xs) (by simp) fun z hz =>
      h z (List.mem_cons_of_mem x hz)
    simpa [List.intercalate] using (h x (by simp)).bar hrest

/-- Alternatives in a group. -/
theorem matchesCharIn_group {α : Type} (text : α → List Char) (has : α → Char → Bool) (xs : List α)
    (hne : xs ≠ []) (h : ∀ x ∈ xs, MatchesCharIn modes g (text x) (has x)) :
    MatchesCharIn modes g ('(' :: '?' :: ':' :: (['|'].intercalate (xs.map text) ++ [')']))
      fun c => xs.any (has · c) := by
  classical
  let items : α → List Item := fun x =>
    if hx : x ∈ xs then (h x hx).choose else []
  have hitems : ∀ x ∈ xs, Reads g (text x) (items x) ∧ (∀ i ∈ items x, i.node.captures = []) ∧
      (sequenceOf (items x)).IsCharIn modes g (has x) := by
    intro x hx
    obtain ⟨hreads, -, hcaptures, hchar⟩ := (h x hx).choose_spec
    simpa only [items, dif_pos hx] using ⟨hreads, hcaptures, hchar⟩
  have hopening : ∀ x : Dialect, x.grammar = g →
      Lexes x 0 0 ['(', '?', ':'] [.groupOpen .plain] :=
    fun x _ => Lexes.token fun _ => rfl
  have hbody := readsBody_bars text items xs hne fun x hx => (hitems x hx).1
  have hgroup : Reads g (['(', '?', ':'] ++ (['|'].intercalate (xs.map text) ++ [')']))
      [⟨Node.ofAlternatives (xs.map fun x => sequenceOf (items x)), true⟩] := by
    refine hbody.group hopening (by simp) fun o ho hb => ?_
    simp [OpenGroup.close, ho, hb]
  refine hgroup.matchesCharIn ?_ ?_
  · rw [Node.captures_ofAlternatives, List.flatMap_eq_nil_iff]
    intro n hn
    obtain ⟨x, hx, rfl⟩ := List.mem_map.1 hn
    exact captures_sequenceOf (hitems x hx).2.1
  · exact Node.isCharIn_ofAlternatives _ has xs hne fun x hx => (hitems x hx).2.2

end Diglot.Host
