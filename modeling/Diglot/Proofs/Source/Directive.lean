import Diglot.Proofs.Source.Locality
import Diglot.Source.Pattern
import Mathlib.Logic.Relation

/-!
# Flag directives

A flag directive governs the rest of the group that it is in. At the outermost level that is the rest
of the pattern, which might as well be put into a group with the same flags. The two patterns are
read alike word by word: only the frame in which the words are put together has another opening, and
it is closed by the last parenthesis instead of the end.
-/

namespace Diglot.Source

open Reader

variable {x y : Reading × Cursor} {s s' s₁ : Reading} {c d : Cursor} {n : Node} {p q : Nat}
  {w w' B : List Char} {f f₀ : Frame} {mid tail low : List (Opening × Frame)} {change : FlagChange}
  {extended : Bool}

/-! ## Moves -/

/-- One word takes the reader from one state and place to another. -/
inductive Move : Reading × Cursor → Reading × Cursor → Prop
  | word {s s' : Reading} {c d : Cursor} {k : Token} (hclasses : s.classes = [])
    (hword : (nextToken s.frame.extended).Gives c (some k) d) (hstep : s.step c.pos k = .ok s') :
    Move (s, c) (s', d)
  | item {s : Reading} {c d : Cursor} {k : ClassFrame} {ks : List ClassFrame} {i : ClassStep}
    (hclasses : s.classes = k :: ks) (hword : nextClassStep.Gives c (some i) d) :
    Move (s, c) (s.classStep k ks i, d)

theorem Move.reaches (h : Move x y) : x.2.Reaches y.2 := by
  cases h with
  | word _ hword _ => exact hword.reaches
  | item _ hword => exact hword.reaches

theorem Move.length_lt (h : Move x y) : y.2.rest.length < x.2.rest.length := by
  cases h with
  | word _ hword _ =>
    obtain ⟨hok, rfl⟩ := hword
    exact nextToken_length hok
  | item _ hword =>
    obtain ⟨hok, rfl⟩ := hword
    exact nextWord_length hok

theorem readTree_of_move (h : Move (s, c) (s', d)) : readTree s c = readTree s' d := by
  cases h with
  | word hclasses hword hstep =>
    obtain ⟨hok, hend⟩ := hword
    rw [readTree]
    split
    next =>
      split
      next hrun => rw [hrun] at hok; cases hok
      next hrun => rw [hrun] at hok; cases hok
      next hrun =>
        rw [hrun] at hok hend
        cases hok
        cases hend
        rw [hstep]
    next hcons => cases hclasses.symm.trans hcons
  | item hclasses hword =>
    obtain ⟨hok, hend⟩ := hword
    rw [readTree]
    split
    next hnil => cases hclasses.symm.trans hnil
    next hcons =>
      cases hclasses.symm.trans hcons
      split
      next hrun => rw [hrun] at hok; cases hok
      next hrun => rw [hrun] at hok; cases hok
      next hrun =>
        rw [hrun] at hok hend
        cases hok
        cases hend
        rfl

theorem readTree_of_moves (h : Relation.ReflTransGen Move x y) :
    readTree x.1 x.2 = readTree y.1 y.2 := by
  induction h with
  | refl => rfl
  | tail _ hmove ih => exact ih.trans (readTree_of_move hmove)

theorem exists_of_readTree (h : readTree s c = .ok n) :
    (s.classes = [] ∧ (∃ d, (nextToken s.frame.extended).Gives c none d) ∧
      Reading.finish s.frame s.outer = .ok n) ∨
    ∃ s' d, Move (s, c) (s', d) ∧ readTree s' d = .ok n := by
  rw [readTree] at h
  split at h
  next hclasses =>
    split at h
    next => cases h
    next d hrun => exact .inl ⟨hclasses, ⟨d.1, by rw [Gives, hrun]; exact ⟨rfl, rfl⟩⟩, h⟩
    next k d hrun =>
      split at h
      next => cases h
      next s' hstep =>
        exact .inr ⟨s', d.1, .word hclasses (by rw [Gives, hrun]; exact ⟨rfl, rfl⟩) hstep, h⟩
  next k ks hclasses =>
    split at h
    next => cases h
    next => cases h
    next i d hrun =>
      exact .inr ⟨_, d.1, .item hclasses (by rw [Gives, hrun]; exact ⟨rfl, rfl⟩), h⟩

/-- At the end of the text the tree is complete. -/
theorem readTree_nil (h : s.classes = []) :
    readTree s ⟨p, []⟩ = Reading.finish s.frame s.outer := by
  rw [readTree, h]
  rfl

/-- A class that is open before a last hyphen is never closed. -/
theorem readTree_hyphen (h : s.classes ≠ []) : readTree s ⟨p, ['-']⟩ ≠ .ok n := by
  intro hread
  obtain ⟨k, ks, hks⟩ := List.exists_cons_of_ne_nil h
  rw [readTree_of_move (d := ⟨p + 1, []⟩) (.item (i := .item (.char '-')) hks ⟨rfl, rfl⟩),
    readTree] at hread
  cases hread

/-! ## Moves before twin texts -/

section

variable {X Y : List Char} (t : Twin X Y)

include t

theorem move_twin (h : Move (s, ⟨p, w ++ X⟩) (s', ⟨q, w' ++ X⟩)) (hw : X = [] → '#' ∉ w)
    (hw' : X = [] → s'.classes ≠ [] → w' ≠ ['-']) : Move (s, ⟨p, w ++ Y⟩) (s', ⟨q, w' ++ Y⟩) := by
  cases h with
  | word hclasses hword hstep => exact .word hclasses (gives_nextToken t hw hword) hstep
  | item hclasses hword =>
    refine .item hclasses (gives_nextClassStep t (fun hX i hi => hw' hX ?_) hword)
    rw [hi]
    exact List.cons_ne_nil _ _

/-- The words before the texts are read alike. -/
theorem moves_twin (hX : X ≠ []) (h : Relation.ReflTransGen Move x (s, ⟨q, w' ++ X⟩)) :
    ∃ w, x.2.rest = w ++ X ∧
      Relation.ReflTransGen Move (x.1, ⟨x.2.pos, w ++ Y⟩) (s, ⟨q, w' ++ Y⟩) := by
  induction h using Relation.ReflTransGen.head_induction_on with
  | refl => exact ⟨w', rfl, .refl⟩
  | @head x y hmove _ ih =>
    obtain ⟨s₁, p₁, rest₁⟩ := x
    obtain ⟨s₂, p₂, rest₂⟩ := y
    obtain ⟨v, rfl, hmoves⟩ := ih
    obtain ⟨read, hread, -⟩ := hmove.reaches
    obtain rfl : rest₁ = (read ++ v) ++ X := by simpa using hread
    refine ⟨read ++ v, rfl, .head ?_ hmoves⟩
    exact move_twin t hmove (fun hnil => absurd hnil hX) fun hnil => absurd hnil hX

end

/-! ## What is around -/

namespace Reading

/-- The reading inside other frames. -/
def within (s : Reading) (tail : List (Opening × Frame)) : Reading :=
  { s with outer := s.outer ++ tail }

theorem closeGroup_append (htail : ∀ f, closeGroup f tail = none)
    (h : closeGroup f (mid ++ tail) = some s) :
    ∃ s' : Reading, s = s'.within tail ∧
      ∀ tail', closeGroup f (mid ++ tail') = some (s'.within tail') := by
  induction mid generalizing f with
  | nil => cases (htail f).symm.trans h
  | cons x mid ih =>
    obtain ⟨o, parent⟩ := x
    cases o with
    | directive change => exact ih h
    | group start how =>
      cases h
      exact ⟨⟨_, mid, []⟩, rfl, fun _ => rfl⟩

/-- What is around a group makes no difference to a word that does not close it. -/
theorem step_within {k : Token} (htail : ∀ f, closeGroup f tail = none)
    (h : (s.within tail).step p k = .ok s₁) :
    ∃ s' : Reading, s₁ = s'.within tail ∧
      ∀ tail', (s.within tail').step p k = .ok (s'.within tail') := by
  cases k with
  | pipe =>
    cases h
    exact ⟨{ s with frame := s.frame.nextAlternative }, rfl, fun _ => rfl⟩
  | close =>
    cases hclose : closeGroup s.frame (s.outer ++ tail) with
    | none => simp [step, within, hclose] at h
    | some r =>
      obtain ⟨s', rfl, hs'⟩ := closeGroup_append htail hclose
      have heq : s₁ = s'.within tail := by simpa [step, within, hclose] using h.symm
      exact ⟨s', heq, fun tail' => by simp [step, within, hs']⟩
  | classOpen negated =>
    cases h
    exact ⟨{ s with classes := [{ start := p, negated }] }, rfl, fun _ => rfl⟩
  | groupOpen how =>
    cases h
    exact ⟨⟨_, (.group p how, s.frame) :: s.outer, s.classes⟩, rfl, fun _ => rfl⟩
  | directive change =>
    cases h
    exact ⟨⟨_, (.directive change, s.frame) :: s.outer, s.classes⟩, rfl, fun _ => rfl⟩
  | quantifier q =>
    have hrepeated : ∀ tail', (s.within tail').step p (.quantifier q)
        = (s.repeated p q).map (·.within tail') := by
      intro tail'
      obtain ⟨⟨_, _, parts⟩, _, _⟩ := s
      rcases parts with _ | ⟨n, ns⟩
      · rfl
      · cases n <;> rfl
    rw [hrepeated] at h
    cases hs' : s.repeated p q with
    | error e => rw [hs'] at h; cases h
    | ok s' =>
      rw [hs'] at h
      cases h
      exact ⟨s', rfl, fun tail' => by rw [hrepeated, hs']; rfl⟩
  | _ =>
    cases h
    exact ⟨{ s with frame := s.frame.push _ }, rfl, fun _ => rfl⟩

theorem classStep_within (s : Reading) (tail : List (Opening × Frame)) (k : ClassFrame)
    (ks : List ClassFrame) (i : ClassStep) :
    (s.within tail).classStep k ks i = (s.classStep k ks i).within tail := by
  cases i with
  | close =>
    unfold classStep
    dsimp only
    split
    · rfl
    · cases ks <;> rfl
  | nested | intersection | item => rfl

theorem move_within (htail : ∀ f, closeGroup f tail = none) (h : Move (s.within tail, c) (s₁, d)) :
    ∃ s' : Reading, s₁ = s'.within tail ∧
      ∀ tail', Move (s.within tail', c) (s'.within tail', d) := by
  cases h with
  | word hclasses hword hstep =>
    obtain ⟨s', rfl, hs'⟩ := step_within htail hstep
    exact ⟨s', rfl, fun tail' => .word hclasses hword (hs' tail')⟩
  | @item _ _ _ k ks i hclasses hword =>
    refine ⟨s.classStep k ks i, classStep_within s tail k ks i, fun tail' => ?_⟩
    rw [← classStep_within]
    exact .item hclasses hword

/-- A directive that ends with the text can be a group that is closed there. -/
theorem exists_of_finish_directive (start : Nat)
    (h : finish f (mid ++ (.directive change, f₀) :: low) = .ok n) :
    ∃ s, closeGroup f (mid ++ (.group start (.flags change), f₀) :: low) = some s ∧
      s.classes = [] ∧ finish s.frame s.outer = .ok n := by
  induction mid generalizing f with
  | nil => exact ⟨_, rfl, rfl, h⟩
  | cons x mid ih =>
    obtain ⟨o, parent⟩ := x
    cases o with
    | directive change => exact ih h
    | group start how => cases h

end Reading

/-! ## The rest of a pattern -/

/-- The end of a text is a closing parenthesis of the text with one. -/
theorem gives_close (hw : '#' ∉ w) (h : (nextToken extended).Gives ⟨p, w⟩ none d) :
    ∃ q, (nextToken extended).Gives ⟨p, w ++ [')']⟩ (some .close) ⟨q, []⟩ := by
  obtain ⟨_, ⟨m, rest⟩, hgap, hword⟩ := gives_bind.1 h
  have hrest : rest = [] := by
    cases rest with
    | nil => rfl
    | cons x cs => obtain ⟨_, ⟨⟩, -⟩ := gives_nextWord_cons.1 hword
  subst hrest
  have hgap' := localAt_skipGap .close (fun _ => hw) () m [] (by simpa using hgap)
  exact ⟨m + 1, gives_bind.2 ⟨_, _, hgap', rfl, rfl⟩⟩

/-- **The rest of a pattern is read alike after a directive and inside a group.** -/
theorem readTree_scoped (start : Nat) (hlow : ∀ f, Reading.closeGroup f low = none) (hw : '#' ∉ w)
    (h : readTree (s.within ((.directive change, f₀) :: low)) ⟨p, w⟩ = .ok n) :
    readTree (s.within ((.group start (.flags change), f₀) :: low)) ⟨p, w ++ [')']⟩ = .ok n := by
  -- the induction goes over the words, each of which takes a character
  induction hlength : w.length using Nat.strong_induction_on generalizing s p w with
  | h length ih =>
    rcases exists_of_readTree h with ⟨hclasses, ⟨d, hend⟩, hfinish⟩ | ⟨s₁, ⟨q, w'⟩, hmove, hrest⟩
    · change s.classes = [] at hclasses
      change (nextToken s.frame.extended).Gives _ _ _ at hend
      change Reading.finish s.frame (s.outer ++ _) = _ at hfinish
      obtain ⟨q, hclose⟩ := gives_close hw hend
      obtain ⟨r, hr, hclasses', hfinish'⟩ := Reading.exists_of_finish_directive start hfinish
      have hmove : Move (s.within ((.group start (.flags change), f₀) :: low), ⟨p, w ++ [')']⟩)
          (r, ⟨q, []⟩) :=
        .word hclasses hclose (by simp [Reading.step, Reading.within, hr])
      rw [readTree_of_move hmove, readTree_nil hclasses', hfinish']
    · have hshorter : w'.length < w.length := hmove.length_lt
      obtain ⟨read, hread, -⟩ := hmove.reaches
      change w = read ++ w' at hread
      have hw' : '#' ∉ w' := fun hmem => hw (hread ▸ List.mem_append_right read hmem)
      have htail : ∀ f, Reading.closeGroup f ((.directive change, f₀) :: low) = none :=
        fun f => hlow _
      obtain ⟨s', rfl, hs'⟩ := Reading.move_within htail hmove
      have hgroup := hs' ((.group start (.flags change), f₀) :: low)
      rw [← List.append_nil w, ← List.append_nil w'] at hgroup
      have hmove' := move_twin .close hgroup (fun _ => hw) fun _ hclasses hhyphen =>
        readTree_hyphen (s := s'.within ((.directive change, f₀) :: low)) hclasses (hhyphen ▸ hrest)
      rw [readTree_of_move hmove']
      exact ih w'.length (hlength ▸ hshorter) hw' hrest rfl

/-! ## Directives -/

/-- Whatever opens like a group and is a directive begins with a flag or a hyphen. -/
theorem flagGroup_of_directive {start : Nat} {cs : List Char}
    (h : (groupOpener start).Gives ⟨p, '?' :: cs⟩ (.directive change) d) :
    cs.head?.any (fun c => c = 'i' || c = 'm' || c = 'x' || c = '-') ∧
      (flagGroup start).Gives ⟨p + 1, cs⟩ (.directive change) d := by
  obtain ⟨_, _, ⟨⟨⟩, rfl⟩, h⟩ := gives_bind.1 h
  change (do
    if (← peek?).any (fun c => c = 'i' || c = 'm' || c = 'x' || c = '-') then _ else _ :
      Reader Token).Gives ⟨p + 1, cs⟩ _ _ at h
  obtain ⟨_, _, ⟨⟨⟩, rfl⟩, h⟩ := gives_bind.1 h
  split at h
  next hflag => exact ⟨hflag, h⟩
  next =>
    obtain ⟨_, _, ⟨⟨⟩, rfl⟩, h⟩ := gives_bind.1 h
    split at h
    all_goals first | cases h.1 | skip
    -- what is left is `(?<`, and a name in quotes
    · obtain ⟨_, _, -, h⟩ := gives_bind.1 h
      split at h
      · cases h.1
      · obtain ⟨_, _, -, h⟩ := gives_bind.1 h
        split at h
        · cases h.1
        · obtain ⟨_, _, -, h⟩ := gives_bind.1 h
          cases h.1
    · obtain ⟨_, _, -, h⟩ := gives_bind.1 h
      cases h.1

/-- What comes after the flags of a flag group. -/
def flagEnd (start : Nat) (change : FlagChange) : Reader Token := do
  let place ← position
  match ← char? with
  | some ')' => return .directive change
  | some ':' => return .groupOpen (.flags change)
  | some c => failAt place (.unknownInlineFlag c)
  | none => failAt start .unclosedFlags

theorem gives_flagEnd {start p q : Nat} {w B : List Char} {change change' : FlagChange}
    (h : (flagEnd start change').Gives ⟨p, w ++ ')' :: B⟩ (.directive change) ⟨q, B⟩) :
    w = [] ∧ change' = change ∧ q = p + 1 := by
  obtain ⟨_, _, ⟨⟨⟩, rfl⟩, h⟩ := gives_bind.1 h
  obtain ⟨_, _, ⟨⟨⟩, rfl⟩, h⟩ := gives_bind.1 h
  cases w with
  | nil =>
    obtain ⟨⟨⟩, hend⟩ := h
    exact ⟨rfl, rfl, (congrArg Cursor.pos hend).symm⟩
  | cons c w =>
    change (match some c with
      | some ')' => _
      | some ':' => _
      | some c => _
      | none => _ : Reader Token).Gives ⟨p + 1, w ++ ')' :: B⟩ _ _ at h
    split at h
    · have hlength := congrArg (·.rest.length) h.2
      simp [pure, done] at hlength
      omega
    all_goals cases h.1

/-- Flags are read alike before the end of a directive and before the colon of a group. -/
theorem gives_flags {f Z : List Char}
    (h : (nextWord tokenFrom).Gives ⟨p, '(' :: '?' :: (f ++ ')' :: B)⟩ (some (.directive change)) ⟨q, B⟩)
    :
    (∃ x f', f = x :: f' ∧ x ≠ '#') ∧
    (nextWord tokenFrom).Gives ⟨p, '(' :: '?' :: (f ++ ':' :: Z)⟩ (some (.groupOpen (.flags change)))
      ⟨q, Z⟩ := by
  obtain ⟨_, ⟨⟩, h⟩ := gives_nextWord_cons.1 h
  obtain ⟨hflag, h⟩ := flagGroup_of_directive h
  have hhead : ∃ x f', f = x :: f' ∧ (x = 'i' ∨ x = 'm' ∨ x = 'x' ∨ x = '-') := by
    cases f with
    | nil => simp at hflag
    | cons x f' => exact ⟨x, f', rfl, by simpa [or_assoc] using hflag⟩
  have hletters : Confined (')' :: B) (':' :: Z) (takeWhile fun c => c = 'i' || c = 'm' || c = 'x') :=
    confined_takeWhile ⟨rfl, rfl⟩
  have hhyphen : Confined (')' :: B) (':' :: Z) (eat '-') := confined_eat (by simp)
  refine ⟨?_, gives_nextWord_cons.2 ⟨_, rfl, ?_⟩⟩
  · obtain ⟨x, f', rfl, hx⟩ := hhead
    exact ⟨x, f', rfl, by rintro rfl; simp at hx⟩
  · have hgroup : (flagGroup p).Gives ⟨p + 2, f ++ ':' :: Z⟩ (.groupOpen (.flags change)) ⟨q, Z⟩ := by
      obtain ⟨on, _, hon, h⟩ := gives_bind.1 h
      obtain ⟨k, v, rfl, hon'⟩ := hletters _ _ _ _ hon
      obtain ⟨hyphen, _, hh, h⟩ := gives_bind.1 h
      obtain ⟨l, u, rfl, hh'⟩ := hhyphen _ _ _ _ hh
      refine gives_bind.2 ⟨on, _, hon', gives_bind.2 ⟨hyphen, _, hh', ?_⟩⟩
      cases hyphen with
      | true =>
        obtain ⟨off, _, hoff, h⟩ := gives_bind.1 h
        obtain ⟨m, z, rfl, hoff'⟩ := hletters _ _ _ _ hoff
        obtain ⟨rfl, rfl, rfl⟩ := gives_flagEnd h
        exact gives_bind.2 ⟨off, _, hoff', rfl, rfl⟩
      | false =>
        change (flagEnd p ⟨flagsOf on, flagsOf []⟩).Gives _ _ _ at h
        obtain ⟨rfl, rfl, rfl⟩ := gives_flagEnd h
        exact ⟨rfl, rfl⟩
    refine gives_bind.2 ⟨true, _, gives_eat '?' _ _, gives_bind.2 ⟨_, _, ⟨rfl, rfl⟩, ?_⟩⟩
    obtain ⟨x, f', rfl, hx⟩ := hhead
    rw [if_pos (by simpa [Cursor.peek?, or_assoc] using hx)]
    exact hgroup

/-- A directive `(?f)` between `A` and `B` that no group is around. The reader comes to it in the
state `s`, and skips a gap from `c` on. -/
structure DirectiveAt (extended : Bool) (A f B : List Char) (s : Reading) (c : Cursor)
    (change : FlagChange) : Prop where
  reached : Relation.ReflTransGen Move
    ({ frame := { extended } }, .start (A ++ '(' :: '?' :: (f ++ ')' :: B))) (s, c)
  outside : s.classes = []
  outermost : ∀ x ∈ s.outer, ∃ change, x.1 = .directive change
  gap : (skipGap s.frame.extended).Gives c () ⟨A.length, '(' :: '?' :: (f ++ ')' :: B)⟩
  word : (nextWord tokenFrom).Gives ⟨A.length, '(' :: '?' :: (f ++ ')' :: B)⟩
    (some (.directive change)) ⟨A.length + f.length + 3, B⟩

/-- Where there are only directives around, there is no group to close. -/
theorem closeGroup_eq_none {outer : List (Opening × Frame)}
    (h : ∀ x ∈ outer, ∃ change, x.1 = .directive change) (f : Frame) :
    Reading.closeGroup f outer = none := by
  induction outer generalizing f with
  | nil => rfl
  | cons x outer ih =>
    obtain ⟨⟨change, hx⟩, houter⟩ := List.forall_mem_cons.1 h
    obtain ⟨o, parent⟩ := x
    obtain rfl : o = .directive change := hx
    exact ih houter _

/-- The text with the directive and the text with the group give one tree. -/
theorem ofText_scoped {A f : List Char} (hdir : DirectiveAt extended A f B s c change)
    (hB : '#' ∉ B) (h : Node.ofText extended (A ++ '(' :: '?' :: (f ++ ')' :: B)) = .ok n) :
    Node.ofText extended (A ++ '(' :: '?' :: (f ++ ':' :: (B ++ [')']))) = .ok n := by
  obtain ⟨⟨x, f, rfl, hx⟩, hgroup⟩ := gives_flags (Z := B ++ [')']) hdir.word
  have t : Twin ('(' :: '?' :: (x :: f ++ ')' :: B)) ('(' :: '?' :: (x :: f ++ ':' :: (B ++ [')']))) :=
    .opener hx _ _
  obtain ⟨k, rest⟩ := c
  obtain ⟨frame, outer, classes⟩ := s
  obtain rfl : classes = [] := hdir.outside
  -- up to the directive, the same words are read
  obtain ⟨g, rfl, -⟩ := hdir.gap.reaches
  obtain ⟨w, hw, hmoves⟩ := moves_twin t (by simp) hdir.reached
  obtain rfl : w = A := (List.append_cancel_right hw).symm
  -- the directive and the group open alike
  have hdirective : Move (⟨frame, outer, []⟩, ⟨k, g ++ '(' :: '?' :: (x :: f ++ ')' :: B)⟩) _ :=
    .word rfl (gives_bind.2 ⟨_, _, hdir.gap, hdir.word⟩) rfl
  have hgap := localAt_skipGap t (w := g) (by simp) () w.length [] hdir.gap
  have hopen : Move (⟨frame, outer, []⟩, ⟨k, g ++ '(' :: '?' :: (x :: f ++ ':' :: (B ++ [')']))⟩) _ :=
    .word rfl (gives_bind.2 ⟨_, _, hgap, hgroup⟩) rfl
  rw [Node.ofText, readTree_of_moves hdir.reached, readTree_of_move hdirective] at h
  refine (readTree_of_moves hmoves).trans ((readTree_of_move hopen).trans ?_)
  exact readTree_scoped (s := ⟨_, [], []⟩) k (closeGroup_eq_none hdir.outermost) hB h

/-- **A flag directive is a group over the rest of the pattern.** Where it can be read and no group is
around it, the pattern in which the rest is put into a group with the same flags is read as the same
pattern. A line comment in the rest might hide the closing parenthesis. -/
theorem read_scoped {o : ReadOptions} {A f B : List Char} {s : Reading} {c : Cursor}
    {change : FlagChange} {p : Pattern} (hdir : DirectiveAt o.flags.extended A f B s c change)
    (hB : '#' ∉ B) (h : Pattern.read o (A ++ '(' :: '?' :: (f ++ ')' :: B)) = .ok p) :
    Pattern.read o (A ++ '(' :: '?' :: (f ++ ':' :: (B ++ [')']))) = .ok p := by
  obtain ⟨n, hn, h⟩ := exists_of_bind_eq_ok h
  unfold Pattern.read
  rw [ofText_scoped hdir hB hn]
  exact h

/-- A directive after an alternative with a group. In the rest are another alternative, a group that
switches free spacing off again, and a parenthesis in a class. -/
theorem read_scoped_alternatives : ∃ s c change p,
    DirectiveAt false "(a)|".toList "x-i".toList " b|(?-x:\\1 )[)]".toList s c change ∧
    Pattern.read {} "(a)|(?x-i) b|(?-x:\\1 )[)]".toList = .ok p ∧
    Pattern.read {} "(a)|(?x-i: b|(?-x:\\1 )[)])".toList = .ok p := by
  have hdir : DirectiveAt false "(a)|".toList "x-i".toList " b|(?-x:\\1 )[)]".toList
      ⟨⟨false, [.group (.capture 0 none) (.literal 'a')], []⟩, [], []⟩
      ⟨4, "(?x-i) b|(?-x:\\1 )[)]".toList⟩ ⟨⟨false, false, true⟩, ⟨true, false, false⟩⟩ := by
    refine ⟨?_, rfl, by simp, ⟨rfl, rfl⟩, ⟨rfl, rfl⟩⟩
    refine .head (.word rfl ⟨rfl, rfl⟩ rfl) (.head (.word rfl ⟨rfl, rfl⟩ rfl) ?_)
    exact .head (.word rfl ⟨rfl, rfl⟩ rfl) (.head (.word rfl ⟨rfl, rfl⟩ rfl) .refl)
  obtain ⟨p, hp⟩ : ∃ p, Pattern.read {} "(a)|(?x-i) b|(?-x:\\1 )[)]".toList = .ok p := by
    decide +kernel
  exact ⟨_, _, _, p, hdir, hp, read_scoped (o := {}) hdir (by decide) hp⟩

end Diglot.Source
