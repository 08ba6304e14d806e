import Diglot.Proofs.Source.Elements
import Diglot.Source.Tree.Reader

/-!
# What is read

A group name that is read has only name characters, and a property name does not hold the brace that
ends it. Ranges and intervals go upwards, and references stand inside the text. So every tree that is
read has sound elements (`sound_of_ofText`). A text that cannot be read has its fault inside the text
(`faultWithin_of_ofText`).
-/

namespace Diglot.Source

open Reader

variable {e : Error} {k : Nat} {extended : Bool} {g : Gap} {cs text : List Char} {n : Node}
  {o : Opening} {ks : List ClassFrame}

/-! ## Sound elements -/

/-- Names as they can be written in a source pattern. -/
def NameRule.readable : NameRule where
  title name := name.toList.all isNameChar
  property name := !name.toList.contains '\x7d'

mutual

/-- Whether the ranges of a class go upwards and its intersections have operands. -/
def CharClass.ordered : CharClass → Bool
  | .mk _ items => itemsOrdered items

/-- Whether the ranges of an item go upwards and its intersections have operands. -/
def ClassItem.ordered : ClassItem → Bool
  | .range a b => a ≤ b
  | .nested cls => cls.ordered
  | .intersection operands => !operands.isEmpty && classesOrdered operands
  | .char _ | .set _ => true

/-- Whether the ranges of the items go upwards and their intersections have operands. -/
def itemsOrdered : List ClassItem → Bool
  | [] => true
  | i :: is => i.ordered && itemsOrdered is

/-- Whether the ranges of the classes go upwards and their intersections have operands. -/
def classesOrdered : List CharClass → Bool
  | [] => true
  | k :: ks => k.ordered && classesOrdered ks

end

theorem itemsOrdered_iff {is : List ClassItem} : itemsOrdered is ↔ ∀ i ∈ is, i.ordered := by
  induction is with
  | nil => simp [itemsOrdered]
  | cons i is ih => rw [itemsOrdered, Bool.and_eq_true, ih, List.forall_mem_cons]

theorem classesOrdered_iff {ks : List CharClass} : classesOrdered ks ↔ ∀ k ∈ ks, k.ordered := by
  induction ks with
  | nil => simp [classesOrdered]
  | cons k ks ih => rw [classesOrdered, Bool.and_eq_true, ih, List.forall_mem_cons]

/-- Whether the bounds of a quantifier go upwards. -/
def Quantifier.ordered (q : Quantifier) : Bool :=
  q.max.all (q.min ≤ ·)

/-- A class with readable names and ranges that go upwards. -/
structure CharClass.Sound (c : CharClass) : Prop where
  keeps : c.keeps .readable
  ordered : c.ordered

/-- An item with readable names and ranges that go upwards. -/
structure ClassItem.Sound (i : ClassItem) : Prop where
  keeps : i.keeps .readable
  ordered : i.ordered

/-- What is read in a text of `size` characters. -/
def Element.Sound (size : Nat) : Element → Prop
  | .set s => s.keeps .readable
  | .charClass cls => cls.Sound
  | .group kind => kind.keeps .readable
  | .quantifier q => Quantifier.ordered q
  | .backreference place _ _ | .subroutine place _ _ => place ≤ size

/-- Why a text of `size` characters is refused: for a fault in the text or at its end, or for a
feature. -/
inductive FaultWithin (size : Nat) : Error → Prop where
  | malformed {k : Nat} (h : k ≤ size) (fault : Fault) : FaultWithin size (.malformed k fault)
  | unsupported (f : Feature) : FaultWithin size (.unsupported f)

/-! ## What readers give -/

namespace Reader

variable {α β : Type} {P : α → Prop} {Q : β → Prop} {size start : Nat}

/-- In a text of `size` characters, `start` or more of which have been read, whatever the reader
gives satisfies `P`, and a fault that it finds lies in the text. -/
def Yields (size start : Nat) (r : Reader α) (P : α → Prop) : Prop :=
  ∀ c : Cursor, c.pos + c.rest.length = size → start ≤ c.pos →
    (∀ a, (r.run c).1 = .ok a → P a) ∧ ∀ e, (r.run c).1 = .error e → FaultWithin size e

/-- A reader that never fails. -/
class Total (r : Reader α) : Prop where
  ok : ∀ c, ∃ a, (r.run c).1 = .ok a

instance (f : List Char → α × Nat) : Total (takeBy f) := ⟨fun _ => ⟨_, rfl⟩⟩
instance (f : Cursor → α) : Total (ask f) := ⟨fun _ => ⟨_, rfl⟩⟩
instance : Total peek? := inferInstanceAs (Total (ask _))
instance : Total char? := inferInstanceAs (Total (takeBy _))
instance (n : Nat) : Total (skip n) := inferInstanceAs (Total (takeBy _))
instance (x : Char) : Total (eat x) := inferInstanceAs (Total (takeBy _))
instance (p : Char → Bool) : Total (takeWhile p) := inferInstanceAs (Total (takeBy _))
instance (n : Nat) (p : Char → Bool) : Total (takeAtMost n p) := inferInstanceAs (Total (takeBy _))

theorem yields_total {r : Reader α} [Total r] (h : ∀ c a, (r.run c).1 = .ok a → P a) :
    r.Yields size start P := by
  intro c _ _
  refine ⟨h c, fun e he => ?_⟩
  obtain ⟨a, ha⟩ := Total.ok (r := r) c
  rw [ha] at he
  cases he

theorem yields_pure {a : α} (h : P a) : (pure a : Reader α).Yields size start P := by
  intro c _ _
  exact ⟨fun b hb => by cases hb; exact h, nofun⟩

theorem yields_fail (h : FaultWithin size e) : (fail e : Reader α).Yields size start P := by
  intro c _ _
  exact ⟨nofun, fun e' he => by cases he; exact h⟩

theorem yields_failAt_of_le (h : k ≤ size) (fault : Fault) :
    (failAt k fault : Reader α).Yields size start P :=
  yields_fail (.malformed h fault)

theorem yields_failAt (fault : Fault) : (failAt start fault : Reader α).Yields size start P := by
  intro c hc hstart
  exact yields_failAt_of_le (by omega) fault c hc hstart

theorem Yields.bind {r : Reader α} {f : α → Reader β} (hr : r.Yields size start P)
    (hf : ∀ a, P a → (f a).Yields size start Q) : (r >>= f).Yields size start Q := by
  intro c hc hstart
  change (∀ b, ((next r f).run c).1 = .ok b → Q b) ∧
    ∀ e, ((next r f).run c).1 = .error e → FaultWithin size e
  unfold next
  dsimp only
  obtain ⟨hok, herror⟩ := hr c hc hstart
  rcases hrun : r.run c with ⟨e | a, d, hd⟩
  · rw [hrun] at herror
    exact ⟨nofun, fun e' he => by cases he; exact herror e rfl⟩
  · rw [hrun] at hok
    obtain ⟨read, -, hpos⟩ := id hd
    exact hf a (hok a rfl) d (hd.total.trans hc) (by omega)

/-- What a reader gives does not depend on what was taken before it. -/
theorem Yields.after {r : Reader α} [Total r] {f : α → Reader β}
    (hf : ∀ a, (f a).Yields size start Q) : (r >>= f).Yields size start Q :=
  (yields_total (P := fun _ => True) fun _ _ _ => trivial).bind fun a _ => hf a

theorem yields_position : position.Yields size start (· ≤ size) := by
  intro c hc _
  refine ⟨fun k hk => ?_, nofun⟩
  cases hk
  show c.pos ≤ size
  omega

/-- What follows a failure does not matter. -/
theorem yields_failAt_bind (fault : Fault) (f : α → Reader β) :
    ((failAt start fault : Reader α) >>= f).Yields size start Q :=
  (yields_failAt (P := fun _ => False) fault).bind fun _ h => h.elim

theorem yields_failAt_bind_of_le (h : k ≤ size) (fault : Fault) (f : α → Reader β) :
    ((failAt k fault : Reader α) >>= f).Yields size start Q :=
  (yields_failAt_of_le (P := fun _ => False) h fault).bind fun _ h => h.elim

theorem yields_ite {c : Prop} [Decidable c] {r r' : Reader α} (h : c → r.Yields size start P)
    (h' : ¬c → r'.Yields size start P) : (if c then r else r').Yields size start P := by
  split
  next hc => exact h hc
  next hc => exact h' hc

theorem yields_takeWhile (p : Char → Bool) :
    (takeWhile p).Yields size start fun cs => ∀ c ∈ cs, p c := by
  refine yields_total fun k cs h c hc => ?_
  cases h
  have hall := List.all_takeWhile (p := p) (l := k.rest)
  exact List.all_eq_true.1 hall c hc

theorem Yields.orBack {r : Reader (Option α)} (h : r.Yields size start fun o => ∀ a ∈ o, P a) :
    (orBack r).Yields size start fun o => ∀ a ∈ o, P a := by
  intro c hc hstart
  obtain ⟨hok, herror⟩ := h c hc hstart
  unfold Reader.orBack
  dsimp only
  split
  next => exact ⟨fun o ho => by cases ho; simp, nofun⟩
  next => exact ⟨hok, herror⟩

end Reader

theorem yields_nextWord {α : Type} {P : α → Prop} {size start : Nat} {r : Nat → Char → Reader α}
    (h : ∀ p x, (r p x).Yields size p P) :
    (nextWord r).Yields size start fun o => ∀ a ∈ o, P a := by
  rintro ⟨p, _ | ⟨x, cs⟩⟩ hc _
  · exact ⟨fun o ho => by cases ho; simp, nofun⟩
  · obtain ⟨hok, herror⟩ := h p x ⟨p + 1, cs⟩ (by simp at hc ⊢; omega) (Nat.le_succ p)
    change (∀ o, (((r p x).run ⟨p + 1, cs⟩).1.map some) = .ok o → ∀ a ∈ o, P a) ∧
      ∀ e, (((r p x).run ⟨p + 1, cs⟩).1.map some) = .error e → FaultWithin size e
    cases hrun : ((r p x).run ⟨p + 1, cs⟩).1 with
    | error e =>
      refine ⟨nofun, fun e' he => ?_⟩
      cases he
      exact herror e hrun
    | ok a =>
      refine ⟨fun o ho b hb => ?_, nofun⟩
      cases ho
      cases hb
      exact hok a hrun

/-! ## Words -/

/-- Whether the name of a group that opens is readable. -/
def GroupOpen.readable : GroupOpen → Bool
  | .named name => NameRule.readable.title name
  | _ => true

/-- Whether a word is one that is read. -/
def Token.sound : Token → Bool
  | .groupOpen how => how.readable
  | .set s => s.keeps .readable
  | .quantifier q => Quantifier.ordered q
  | _ => true

/-- Whether an escape is one that is read. -/
def Escaped.sound : Escaped → Bool
  | .char _ => true
  | .set s => s.keeps .readable

/-- Whether a word of a class is one that is read. -/
def ClassToken.sound : ClassToken → Bool
  | .set s => s.keeps .readable
  | _ => true

/-- A step inside a class that is read in a text of `size` characters. -/
def ClassStep.Sound (size : Nat) : ClassStep → Prop
  | .nested start _ => start ≤ size
  | .item i => i.Sound
  | _ => True

theorem gapLength_bounds {n m : Nat} (h : gapLength extended g n cs = .ok m) :
    n ≤ m ∧ m ≤ n + cs.length := by
  fun_induction gapLength extended g n cs with
  | case10 | case11 => cases h
  | case4 | case8 | case9 =>
    cases h
    exact ⟨Nat.le_refl _, Nat.le_add_right ..⟩
  | case1 n cs ih | case2 n c cs _ _ ih | case3 n c cs _ _ _ ih | case5 n c cs ih
  | case6 _ n c cs ih | case7 _ n c cs ih =>
    obtain ⟨hle, hlength⟩ := ih h
    simp only [List.length_cons]
    omega

/-- How many characters stand before the comment group in which a gap is. -/
def Gap.start : Gap → Nat
  | .outside | .line => 0
  | .group s | .escaped s => s

theorem gapLength_error {n s : Nat} (hg : g.start ≤ n) (h : gapLength extended g n cs = .error s) :
    s ≤ n + cs.length := by
  fun_induction gapLength extended g n cs with
  | case4 | case8 | case9 => cases h
  | case10 | case11 => cases h; exact hg
  | case1 n cs ih =>
    have := ih (Nat.le_add_right n 3) h
    simp only [List.length_cons]
    omega
  | case2 n c cs _ _ ih | case3 n c cs _ _ _ ih | case7 _ n c cs ih =>
    have := ih (Nat.le_trans hg (Nat.le_succ n)) h
    simp only [List.length_cons]
    omega
  | case5 n c cs ih =>
    have := ih (by split <;> exact Nat.zero_le _) h
    simp only [List.length_cons]
    omega
  | case6 k n c cs ih =>
    have hk : k ≤ n + 1 := Nat.le_trans hg (Nat.le_succ n)
    have hnext : (if c = '\\' then Gap.escaped k else if c = ')' then .outside else .group k).start
        ≤ n + 1 := by
      split
      · exact hk
      · split
        · exact Nat.zero_le _
        · exact hk
    have := ih hnext h
    simp only [List.length_cons]
    omega

section

variable {size start : Nat}

theorem yields_property (upper : Bool) :
    (Escape.property start upper).Yields size start (·.keeps .readable) := by
  unfold Escape.property
  refine .after fun _ => yields_ite (fun _ => yields_failAt_bind _ _) fun _ => ?_
  refine .after fun caret => (yields_takeWhile _).bind fun name hname => ?_
  refine .after fun _ => yields_ite (fun _ => yields_failAt_bind _ _) fun _ => ?_
  refine yields_ite (fun _ => yields_failAt_bind _ _) fun _ => yields_pure ?_
  rw [CharSet.keeps, NameRule.readable, Bool.not_eq_true', ← Bool.not_eq_true]
  intro h
  rw [String.toList_ofList, List.contains_iff_mem] at h
  exact absurd (hname _ h) (by decide)

theorem yields_groupName (closer : Char) :
    (groupName closer).Yields size start (NameRule.readable.title ·) := by
  unfold groupName
  refine yields_position.bind fun place hplace => (yields_takeWhile _).bind fun name hname => ?_
  refine .after fun _ => yields_ite (fun _ => yields_failAt_bind_of_le hplace _ _) fun _ => ?_
  refine yields_ite (fun _ => yields_failAt_bind_of_le hplace _ _) fun _ => yields_pure ?_
  simpa [NameRule.readable] using hname

theorem yields_braced (radix : Nat) :
    (Escape.braced start radix).Yields size start fun _ => True := by
  unfold Escape.braced
  refine .after fun _ => .after fun _ => .after fun _ => ?_
  refine yields_ite (fun _ => yields_failAt_bind _ _) fun _ => ?_
  split
  · exact yields_pure trivial
  · exact yields_failAt _

theorem yields_hex : (Escape.hex start).Yields size start fun _ => True := by
  unfold Escape.hex
  refine .after fun _ => yields_ite (fun _ => yields_braced 16) fun _ => ?_
  exact .after fun _ => yields_pure trivial

theorem yields_fixedHex : ∀ count value : Nat,
    (Escape.fixedHex start count value).Yields size start fun _ => True
  | 0, _ => yields_pure trivial
  | count + 1, value => by
    refine .after fun c => ?_
    split
    · exact yields_ite (fun _ => yields_fixedHex count _) fun _ => yields_failAt _
    · exact yields_failAt _

theorem yields_unicode : (Escape.unicode start).Yields size start fun _ => True := by
  refine (yields_fixedHex 4 0).bind fun value _ => ?_
  split
  · exact yields_pure trivial
  · exact yields_failAt _

theorem yields_octal : Escape.octal.Yields size start fun _ => True :=
  .after fun _ => yields_pure trivial

theorem yields_control : (Escape.control start).Yields size start fun _ => True := by
  refine .after fun c => ?_
  split
  · exact yields_pure trivial
  · exact yields_failAt _

theorem yields_shared : (Escape.shared start).Yields size start (·.sound) := by
  have hchar : ∀ {r : Reader Char}, r.Yields size start (fun _ => True) →
      (do return Escaped.char (← r) : Reader Escaped).Yields size start (·.sound) :=
    fun h => h.bind fun _ _ => yields_pure rfl
  unfold Escape.shared
  refine .after fun c => ?_
  split
  case h_1 => exact yields_failAt _
  all_goals
    first
    | exact yields_pure rfl
    | exact (yields_property _).bind fun _ h => yields_pure h
    | exact hchar yields_hex
    | exact hchar yields_unicode
    | exact hchar yields_octal
    | exact hchar yields_control
    | exact .after fun _ => yields_ite (fun _ => hchar (yields_braced 8)) fun _ => yields_pure rfl

theorem yields_suffixed {min : Nat} {max : Option Nat} (h : max.all (min ≤ ·)) :
    (suffixed min max).Yields size start (·.sound) := by
  unfold suffixed
  refine .after fun _ => yields_ite (fun _ => yields_pure h) fun _ => ?_
  exact .after fun _ => yields_ite (fun _ => yields_pure h) fun _ => yields_pure h

theorem yields_intervalEnd (min : Nat) (max : Option Nat) :
    (intervalEnd min max).Yields size start fun o => ∀ t ∈ o, t.sound := by
  unfold intervalEnd
  refine .after fun closed => yields_ite (fun _ => yields_pure (by simp)) fun h => ?_
  have hordered : max.all (min ≤ ·) := by
    cases max <;> simp_all
  have hpure : ∀ kind, (pure (some (Token.quantifier ⟨min, max, kind⟩)) : Reader _).Yields
      size start fun o => ∀ t ∈ o, t.sound := by
    refine fun kind => yields_pure ?_
    rintro _ ⟨⟩
    exact hordered
  refine yields_ite (fun _ => .after fun _ => ?_) fun _ => hpure _
  exact yields_ite (fun _ => hpure _) fun _ => hpure _

theorem yields_count : count.Yields size start fun _ => True :=
  .after fun _ => yields_pure trivial

theorem yields_interval : interval.Yields size start fun o => ∀ t ∈ o, t.sound := by
  refine .orBack (yields_count.bind fun low _ => .after fun _ =>
    yields_ite (fun _ => yields_count.bind fun high _ => ?_) fun _ => ?_)
  · exact yields_ite (fun _ => yields_pure (by simp)) fun _ => yields_intervalEnd _ _
  · split
    · exact yields_intervalEnd _ _
    · exact yields_pure (by simp)

theorem yields_flagGroup : (flagGroup start).Yields size start (·.sound) := by
  refine .after fun on => .after fun _ => yields_ite (fun _ => .after fun off => ?_)
    fun _ => (yields_pure (P := fun _ => True) trivial).bind fun off _ => ?_
  all_goals
    refine yields_position.bind fun place hplace => .after fun _ => ?_
    split
    · exact yields_pure rfl
    · exact yields_pure rfl
    · exact yields_failAt_of_le hplace _
    · exact yields_failAt _

theorem yields_groupOpener : (groupOpener start).Yields size start (·.sound) := by
  have hnamed : ∀ closer, (do return Token.groupOpen (.named (← groupName closer))).Yields
      size start (·.sound) :=
    fun closer => (yields_groupName closer).bind fun _ h => yields_pure h
  unfold groupOpener
  refine .after fun _ => yields_ite (fun _ => yields_pure rfl) fun _ => ?_
  refine .after fun _ => yields_ite (fun _ => ?_) fun _ => .after fun c => ?_
  · exact yields_flagGroup
  · split
    all_goals
      first
      | exact yields_pure rfl
      | exact hnamed _
      | exact yields_failAt _
      | exact yields_fail (.unsupported _)
      | skip
    -- What is left is `(?<`, which opens a look around or a named group.
    refine .after fun _ => yields_ite (fun _ => yields_pure rfl) fun _ => ?_
    exact .after fun _ => yields_ite (fun _ => yields_pure rfl) fun _ => hnamed _

/-- A reference in brackets is found faulty at its start. -/
theorem faultWithin_referenceOf {kind : ReferenceKind} {content : List Char}
    (h : referenceOf start kind content = .error e) (hstart : start ≤ size) :
    FaultWithin size e := by
  unfold referenceOf at h
  dsimp only at h
  split at h
  · cases h
    exact .unsupported _
  · split at h
    · split at h
      · cases h
      · split at h <;> cases h
        exact .unsupported _
    · split at h <;> cases h
      exact .malformed hstart _

/-- The rest of a reference, after the bracket or quote that opens it. -/
def referenceBody (start : Nat) (kind : ReferenceKind) (closer : Char) : Reader Reference := do
  let content ← takeWhile (· != closer)
  if !(← eat closer) then failAt start (.unclosedReference kind)
  match referenceOf start kind content with
  | .ok r => return r
  | .error e => fail e

/-- An escape that has the same meaning inside and outside bracketed classes, as a word. -/
def sharedWord {α : Type} (literal : Char → α) (set : CharSet → α) (start : Nat) : Reader α := do
  match ← Escape.shared start with
  | .char c => return literal c
  | .set s => return set s

theorem yields_referenceBody (kind : ReferenceKind) (closer : Char) :
    (referenceBody start kind closer).Yields size start fun _ => True := by
  refine .after fun content => .after fun _ =>
    yields_ite (fun _ => yields_failAt_bind _ _) fun _ => ?_
  split
  · exact yields_pure trivial
  next e he =>
    intro c hc hstart
    exact yields_fail (faultWithin_referenceOf he (by omega)) c hc hstart

theorem yields_reference (kind : ReferenceKind) :
    (reference start kind).Yields size start fun _ => True := by
  refine .after fun c => ?_
  split
  · exact (yields_pure (P := fun _ => True) trivial).bind fun _ _ => yields_referenceBody kind _
  · exact (yields_pure (P := fun _ => True) trivial).bind fun _ _ => yields_referenceBody kind _
  · exact yields_failAt_bind _ _

theorem yields_escape : (escape start).Yields size start (·.sound) := by
  have hshared : (sharedWord Token.literal .set start).Yields size start (·.sound) := by
    refine yields_shared.bind fun x h => ?_
    cases x with
    | char c => exact yields_pure rfl
    | set s => exact yields_pure h
  unfold escape
  refine .after fun c => ?_
  split
  all_goals
    first
    | exact .after fun _ => yields_pure rfl
    | exact .after fun _ => (yields_reference _).bind fun _ _ => yields_pure rfl
    | exact yields_failAt _
    | exact yields_ite (fun _ => yields_count.bind fun _ _ => yields_pure rfl) fun _ => hshared

theorem yields_tokenFrom (c : Char) : (tokenFrom start c).Yields size start (·.sound) := by
  unfold tokenFrom
  split
  case h_7 => exact yields_groupOpener
  case h_12 => exact yields_escape
  case h_11 =>
    refine yields_interval.bind fun o h => yields_pure ?_
    cases o with
    | none => rfl
    | some t => exact h t rfl
  all_goals
    first
    | exact yields_pure rfl
    | exact yields_suffixed rfl
    | exact .after fun _ => yields_pure rfl

theorem yields_nextToken (extended : Bool) :
    (nextToken extended).Yields size start fun o => ∀ t ∈ o, t.sound := by
  have hgap : (skipGap extended).Yields size start fun _ => True := by
    intro c hc _
    refine ⟨fun _ _ => trivial, fun e he => ?_⟩
    unfold skipGap at he
    dsimp only at he
    split at he
    · cases he
    next s hs =>
      cases he
      have := gapLength_error (Nat.zero_le 0) hs
      exact .malformed (by omega) _
  exact hgap.bind fun _ _ => yields_nextWord fun _ => yields_tokenFrom

theorem yields_posix : posix.Yields size start fun o => ∀ s ∈ o, s.keeps .readable := by
  refine .orBack (.after fun _ => .after fun _ => .after fun name => ?_)
  refine yields_ite (fun _ => yields_pure (by simp)) fun _ => .after fun _ => ?_
  refine yields_ite (fun _ => .after fun _ => ?_) fun _ => yields_pure (by simp)
  refine yields_ite (fun _ => yields_pure ?_) fun _ => yields_pure (by simp)
  rintro _ ⟨⟩
  rfl

theorem yields_classTokenFrom (c : Char) : (classTokenFrom start c).Yields size start (·.sound) := by
  have hshared : (sharedWord ClassToken.literal .set start).Yields size start (·.sound) := by
    refine yields_shared.bind fun x h => ?_
    cases x with
    | char c => exact yields_pure rfl
    | set s => exact yields_pure h
  unfold classTokenFrom
  split
  case h_4 =>
    refine .after fun _ => yields_ite (fun _ => ?_) fun _ => .after fun _ => yields_pure rfl
    refine yields_posix.bind fun o h => ?_
    cases o with
    | none => exact .after fun _ => yields_pure rfl
    | some s => exact yields_pure (h s rfl)
  case h_5 =>
    refine .after fun _ => ?_
    split
    · exact .after fun _ => yields_pure rfl
    · exact yields_ite (fun _ => .after fun _ => yields_pure rfl) fun _ => hshared
    · exact hshared
  case h_2 =>
    refine .after fun both => yields_pure ?_
    cases both <;> rfl
  all_goals exact yields_pure rfl

theorem yields_classLiteral (c : Char) : (classLiteral c).Yields size start (·.Sound) := by
  have hword : nextClassToken.Yields size start fun o => ∀ t ∈ o, t.sound :=
    yields_nextWord fun _ => yields_classTokenFrom
  unfold classLiteral
  refine yields_position.bind fun place hplace => .after fun _ =>
    yields_ite (fun _ => yields_pure ⟨rfl, rfl⟩) fun _ => ?_
  refine hword.bind fun _ _ => hword.bind fun t _ => ?_
  split
  · exact yields_ite (fun h => yields_pure ⟨rfl, decide_eq_true h⟩)
      fun _ => yields_failAt_of_le hplace _
  · exact yields_failAt_of_le hplace _

theorem yields_nextClassStep :
    nextClassStep.Yields size start fun o => ∀ t ∈ o, t.Sound size := by
  refine yields_nextWord fun p c => (yields_classTokenFrom c).bind fun t h => ?_
  cases t with
  | close | intersection => exact yields_pure trivial
  | hyphen => exact yields_pure ⟨rfl, rfl⟩
  | nested negated =>
    exact yields_position.bind fun place hplace => yields_pure (Nat.le_trans (Nat.sub_le ..) hplace)
  | literal c => exact (yields_classLiteral c).bind fun i hi => yields_pure hi
  | set s => exact yields_pure ⟨h, rfl⟩

end

/-! ## Trees -/

section

variable {size : Nat} {f : Frame}

theorem elementsAll_eq (ns : List Node) : elementsAll ns = ns.flatMap (·.elements) := by
  induction ns with
  | nil => rfl
  | cons n ns ih => rw [elementsAll, ih, List.flatMap_cons]

@[simp] theorem elements_ofSequence (ns : List Node) :
    (Node.ofSequence ns).elements = ns.flatMap (·.elements) := by
  unfold Node.ofSequence
  split
  · rfl
  · simp
  · rw [Node.elements, elementsAll_eq]

@[simp] theorem elements_ofAlternatives (ns : List Node) :
    (Node.ofAlternatives ns).elements = ns.flatMap (·.elements) := by
  unfold Node.ofAlternatives
  split
  · rfl
  · simp
  · rw [Node.elements, elementsAll_eq]

/-- What has been read in a frame is sound. -/
def Frame.Sound (size : Nat) (f : Frame) : Prop :=
  ∀ e ∈ f.body.elements, e.Sound size

theorem Frame.Sound.push (h : f.Sound size) (hn : ∀ e ∈ n.elements, e.Sound size) :
    (f.push n).Sound size := by
  have helements : (f.push n).body.elements = f.body.elements ++ n.elements := by
    simp [Frame.body, Frame.push, List.flatMap_append]
  rw [Frame.Sound, helements]
  exact List.forall_mem_append.2 ⟨h, hn⟩

theorem Frame.Sound.nextAlternative (h : f.Sound size) : f.nextAlternative.Sound size := by
  simpa [Frame.Sound, Frame.body, Frame.nextAlternative, Node.ofSequence, Node.elements] using h

theorem Frame.sound_empty (extended : Bool) : Frame.Sound size { extended } := by
  simp [Frame.Sound, Frame.body, Node.ofSequence, Node.ofAlternatives, Node.elements]

/-- An opening inside the text with a readable name. -/
def Opening.Sound (size : Nat) : Opening → Prop
  | .group start how => start ≤ size ∧ how.readable
  | .directive _ => True

theorem Opening.Sound.node (h : o.Sound size) {body : Node} (hb : ∀ e ∈ body.elements, e.Sound size) :
    ∀ e ∈ (o.node body).elements, e.Sound size := by
  match o with
  | .group _ (.named name) => exact List.forall_mem_cons.2 ⟨h.2, hb⟩
  | .group _ .absent => exact hb
  | .group _ .capture | .group _ .plain | .group _ .atomic | .group _ (.look _)
  | .group _ (.flags _) | .directive _ => exact List.forall_mem_cons.2 ⟨rfl, hb⟩

/-- An open class inside the text of which sound items have been read. -/
structure ClassFrame.Sound (size : Nat) (k : ClassFrame) : Prop where
  start : k.start ≤ size
  operands : ∀ c ∈ k.operands, c.Sound
  items : ∀ i ∈ k.items, i.Sound

namespace ClassFrame.Sound

variable {k : ClassFrame}

theorem push (h : k.Sound size) {i : ClassItem} (hi : i.Sound) : (k.push i).Sound size :=
  ⟨h.start, h.operands, List.forall_mem_cons.2 ⟨hi, h.items⟩⟩

theorem union (h : k.Sound size) (negated : Bool) : (CharClass.mk negated k.items.reverse).Sound where
  keeps := by
    rw [CharClass.keeps, keepsItems_eq]
    exact List.all_eq_true.2 fun i hi => (h.items i (List.mem_reverse.1 hi)).keeps
  ordered := by
    rw [CharClass.ordered, itemsOrdered_iff]
    exact fun i hi => (h.items i (List.mem_reverse.1 hi)).ordered

theorem allOperands (h : k.Sound size) :
    ∀ c ∈ CharClass.mk false k.items.reverse :: k.operands, c.Sound :=
  List.forall_mem_cons.2 ⟨h.union false, h.operands⟩

theorem cut (h : k.Sound size) : k.cut.Sound size :=
  ⟨h.start, h.allOperands, by simp [ClassFrame.cut]⟩

theorem toClass (h : k.Sound size) : k.toClass.Sound := by
  unfold ClassFrame.toClass
  split
  · exact h.union k.negated
  · constructor
    · rw [CharClass.keeps, keepsItems, keepsItems, Bool.and_true, ClassItem.keeps, keepsClasses_eq]
      exact List.all_eq_true.2 fun c hc => (h.allOperands c (List.mem_reverse.1 hc)).keeps
    · rw [CharClass.ordered, itemsOrdered, itemsOrdered, Bool.and_true, ClassItem.ordered,
        Bool.and_eq_true, classesOrdered_iff]
      exact ⟨by simp, fun c hc => (h.allOperands c (List.mem_reverse.1 hc)).ordered⟩

end ClassFrame.Sound

/-- What has been read is sound. -/
structure Reading.Sound (size : Nat) (s : Reading) : Prop where
  frame : s.frame.Sound size
  outer : ∀ x ∈ s.outer, x.1.Sound size ∧ x.2.Sound size
  classes : ∀ k ∈ s.classes, k.Sound size

/-- The result is sound, or a fault inside the text. -/
def Ends (size : Nat) {α : Type} (P : α → Prop) : Except Error α → Prop
  | .ok a => P a
  | .error e => FaultWithin size e

namespace Reading

variable {s : Reading}

theorem Sound.push (h : s.Sound size) (hn : ∀ e ∈ n.elements, e.Sound size) :
    Ends size (Reading.Sound size) (s.push n) :=
  ⟨h.frame.push hn, h.outer, h.classes⟩

theorem Sound.opened (h : s.Sound size) (ho : o.Sound size) :
    Ends size (Reading.Sound size) (s.opened o) :=
  ⟨Frame.sound_empty _, List.forall_mem_cons.2 ⟨⟨ho, h.frame⟩, h.outer⟩, h.classes⟩

theorem Sound.repeated (h : s.Sound size) {start : Nat} (hstart : start ≤ size) {q : Quantifier}
    (hq : Quantifier.ordered q) : Ends size (Reading.Sound size) (s.repeated start q) := by
  unfold Reading.repeated
  split
  case h_4 n before _ _ hparts =>
    refine ⟨?_, h.outer, h.classes⟩
    have hframe := h.frame
    have hq : Element.Sound size (.quantifier q) := hq
    simp only [Frame.Sound, Frame.body, hparts, elements_ofAlternatives, List.reverse_cons,
      List.flatMap_append, List.flatMap_singleton, elements_ofSequence, Node.elements,
      List.forall_mem_append, List.forall_mem_cons] at hframe ⊢
    exact ⟨hframe.1, hframe.2.1, hq, hframe.2.2⟩
  all_goals exact .malformed hstart _

theorem sound_closeGroup : ∀ (outer : List (Opening × Frame)) {f : Frame} {s' : Reading},
    f.Sound size → (∀ x ∈ outer, x.1.Sound size ∧ x.2.Sound size) →
    closeGroup f outer = some s' → s'.Sound size
  | (o, parent) :: outer, f, s', hf, ho, h => by
    obtain ⟨⟨hopen, hparent⟩, houter⟩ := List.forall_mem_cons.1 ho
    have hpush := hparent.push (hopen.node hf)
    cases o with
    | directive change => exact sound_closeGroup outer hpush houter h
    | group start how =>
      cases h
      exact ⟨hpush, houter, by simp⟩

theorem sound_finish : ∀ (outer : List (Opening × Frame)) {f : Frame}, f.Sound size →
    (∀ x ∈ outer, x.1.Sound size ∧ x.2.Sound size) →
    Ends size (fun n => ∀ e ∈ n.elements, e.Sound size) (finish f outer)
  | [], f, hf, _ => hf
  | (o, parent) :: outer, f, hf, ho => by
    obtain ⟨⟨hopen, hparent⟩, houter⟩ := List.forall_mem_cons.1 ho
    cases o with
    | directive change => exact sound_finish outer (hparent.push (hopen.node hf)) houter
    | group start how => exact .malformed hopen.1 _

/-- A word that is sound leads to what is sound. -/
theorem Sound.step (h : s.Sound size) {start : Nat} (hstart : start ≤ size) {t : Token}
    (ht : t.sound) : Ends size (Reading.Sound size) (s.step start t) := by
  cases t with
  | pipe => exact ⟨h.frame.nextAlternative, h.outer, h.classes⟩
  | close =>
    rw [Reading.step]
    split
    next hc => exact sound_closeGroup s.outer h.frame h.outer hc
    next => exact .malformed hstart _
  | classOpen negated =>
    exact ⟨h.frame, h.outer, by simpa using ⟨hstart, by simp, by simp⟩⟩
  | groupOpen how => exact h.opened ⟨hstart, ht⟩
  | directive change => exact h.opened trivial
  | quantifier q => exact h.repeated hstart ht
  | set x => exact h.push (n := .set x) (List.forall_mem_singleton.2 ht)
  | backreference ref =>
    exact h.push (n := .backreference start ref []) (List.forall_mem_singleton.2 hstart)
  | subroutine ref =>
    exact h.push (n := .subroutine start ref 0) (List.forall_mem_singleton.2 hstart)
  | dot | literal _ | assertion _ | keep | lineBreak | grapheme =>
    exact h.push (by simp [Node.elements])

theorem Sound.closeClass (h : s.Sound size) {cls : CharClass} (hc : cls.Sound)
    (hks : ∀ k ∈ ks, k.Sound size) : (s.closeClass cls ks).Sound size := by
  cases ks with
  | nil =>
    have hframe := h.frame.push (n := .charClass cls) (List.forall_mem_singleton.2 hc)
    exact ⟨hframe, h.outer, by simp [Reading.closeClass]⟩
  | cons k ks =>
    obtain ⟨hk, hks⟩ := List.forall_mem_cons.1 hks
    have hitem : ClassItem.Sound (.nested cls) := ⟨hc.keeps, hc.ordered⟩
    exact ⟨h.frame, h.outer, List.forall_mem_cons.2 ⟨hk.push hitem, hks⟩⟩

/-- A step inside a class that is sound leads to what is sound. -/
theorem Sound.classStep (h : s.Sound size) {k : ClassFrame} (hk : k.Sound size)
    (hks : ∀ k ∈ ks, k.Sound size) {t : ClassStep} (ht : t.Sound size) :
    (s.classStep k ks t).Sound size := by
  cases t with
  | close =>
    rw [Reading.classStep]
    split
    · exact ⟨h.frame, h.outer, List.forall_mem_cons.2 ⟨hk.push ⟨rfl, rfl⟩, hks⟩⟩
    · exact h.closeClass hk.toClass hks
  | nested start negated =>
    refine ⟨h.frame, h.outer, List.forall_mem_cons.2 ⟨⟨ht, by simp, by simp⟩, ?_⟩⟩
    exact List.forall_mem_cons.2 ⟨hk, hks⟩
  | intersection => exact ⟨h.frame, h.outer, List.forall_mem_cons.2 ⟨hk.cut, hks⟩⟩
  | item i => exact ⟨h.frame, h.outer, List.forall_mem_cons.2 ⟨hk.push ht, hks⟩⟩

end Reading

theorem sound_of_readTree (s : Reading) (c : Cursor) (hc : c.pos + c.rest.length = size)
    (hs : s.Sound size) :
    Ends size (fun n => ∀ e ∈ n.elements, e.Sound size) (readTree s c) := by
  fun_induction readTree s c
  case case1 s c _ e d hrun =>
    exact (yields_nextToken _ c hc (Nat.le_refl _)).2 e (by rw [hrun])
  case case2 s c _ d hrun => exact Reading.sound_finish s.outer hs.frame hs.outer
  case case3 s c _ t d hrun e hstep =>
    have ht := (yields_nextToken _ c hc (Nat.le_refl _)).1 _ (by rw [hrun]) t rfl
    have hend := hs.step (by omega : c.pos ≤ size) ht
    rwa [hstep] at hend
  case case4 s c _ t d hrun s' hstep ih =>
    have ht := (yields_nextToken _ c hc (Nat.le_refl _)).1 _ (by rw [hrun]) t rfl
    have hend := hs.step (by omega : c.pos ≤ size) ht
    rw [hstep] at hend
    exact ih (d.2.total.trans hc) hend
  case case5 s c k ks hclasses e d hrun =>
    exact (yields_nextClassStep c hc (Nat.le_refl _)).2 e (by rw [hrun])
  case case6 s c k ks hclasses d hrun =>
    have hk := hs.classes k (by simp [hclasses])
    exact .malformed hk.start _
  case case7 s c k ks hclasses t d hrun ih =>
    have hk := hs.classes
    rw [hclasses] at hk
    obtain ⟨hk, hks⟩ := List.forall_mem_cons.1 hk
    have ht := (yields_nextClassStep c hc (Nat.le_refl _)).1 _ (by rw [hrun]) t rfl
    exact ih (d.2.total.trans hc) (hs.classStep hk hks ht)

theorem ends_ofText (extended : Bool) (text : List Char) :
    Ends text.length (fun n => ∀ e ∈ n.elements, e.Sound text.length)
      (Node.ofText extended text) :=
  sound_of_readTree _ (.start text) (Nat.zero_add _) ⟨Frame.sound_empty _, by simp, by simp⟩

/-- **The elements of a tree that is read are sound.** -/
theorem sound_of_ofText (h : Node.ofText extended text = .ok n) :
    ∀ e ∈ n.elements, e.Sound text.length := by
  have hend := ends_ofText extended text
  rw [h] at hend
  exact hend

/-- **A text that cannot be read is faulty inside.** -/
theorem faultWithin_of_ofText (h : Node.ofText extended text = .error e) :
    FaultWithin text.length e := by
  have hend := ends_ofText extended text
  rw [h] at hend
  exact hend

/-- **Names that are read are readable.** -/
theorem keeps_of_ofText (h : Node.ofText extended text = .ok n) : n.keeps .readable := by
  rw [keeps_eq]
  refine List.all_eq_true.2 fun e he => ?_
  have hsound := sound_of_ofText h e he
  cases e with
  | set | group => exact hsound
  | charClass => exact hsound.keeps
  | quantifier | backreference | subroutine => rfl

/-- **Of the classes that are read, every range goes upwards and every intersection has
operands.** -/
theorem ordered_of_ofText (h : Node.ofText extended text = .ok n) : ∀ k ∈ n.classes, k.ordered := by
  intro k hk
  rw [classes_eq] at hk
  obtain ⟨e, he, hclass⟩ := List.mem_filterMap.1 hk
  have hsound := sound_of_ofText h e he
  cases e <;> cases hclass
  exact hsound.ordered

end

end Diglot.Source
