import Diglot.Proofs.Source.Reading
import Mathlib.Data.List.TakeWhile

/-!
# What words depend on

A word of a pattern is read from its own characters and at most a few that follow. Two texts after it
make no difference to it if they begin with the same opener of a group, or if one is empty and the
other a closing parenthesis (`Twin`): whatever is read before the one is read before the other
(`gives_nextToken`, `gives_nextClassStep`).
-/

namespace Diglot.Source

open Text Reader

variable {c d : Cursor} {p q n : Nat} {w X w' : List Char} {err : Error} {s : Char → Bool}
  {x : Char} {extended : Bool}

/-- Two texts that look alike from before them. -/
inductive Twin : List Char → List Char → Prop
  | opener {c : Char} (h : c ≠ '#') (X Y : List Char) :
    Twin ('(' :: '?' :: c :: X) ('(' :: '?' :: c :: Y)
  | close : Twin [] [')']

namespace Reader

variable {α β : Type} {Y : List Char}

/-- At `c`, the reader gives `a` and ends at `d`. -/
def Gives (r : Reader α) (c : Cursor) (a : α) (d : Cursor) : Prop :=
  (r.run c).1 = .ok a ∧ (r.run c).2.1 = d

theorem Gives.reaches {r : Reader α} {a : α} (h : r.Gives c a d) : c.Reaches d :=
  h.2 ▸ (r.run c).2.2

/-- A reader that stops before a text started before it. -/
theorem Gives.exists_append {r : Reader α} {rest : List Char} {a : α}
    (h : r.Gives ⟨p, rest⟩ a ⟨q, w ++ X⟩) : ∃ v, rest = v ++ X := by
  obtain ⟨read, hread, -⟩ := h.reaches
  exact ⟨read ++ w, by simpa using hread⟩

theorem Gives.unique {r : Reader α} {d' : Cursor} {a a' : α} (h : r.Gives c a d)
    (h' : r.Gives c a' d') : a = a' ∧ d = d' :=
  ⟨Except.ok.inj (h.1.symm.trans h'.1), h.2.symm.trans h'.2⟩

theorem gives_bind {r : Reader α} {f : α → Reader β} {e : Cursor} {b : β} :
    (r >>= f).Gives c b e ↔ ∃ a d, r.Gives c a d ∧ (f a).Gives d b e := by
  change ((next r f).run c).1 = .ok b ∧ ((next r f).run c).2.1 = e ↔ _
  unfold next
  dsimp only
  rcases hrun : r.run c with ⟨err | a, d, hd⟩
  · simp [Gives, hrun]
  · simp only [Gives, hrun, Except.ok.injEq]
    exact ⟨fun h => ⟨a, d, ⟨rfl, rfl⟩, h⟩, fun ⟨_, _, ⟨ha, hd'⟩, h⟩ => ha ▸ hd' ▸ h⟩

theorem gives_orBack {r : Reader (Option α)} {o : Option α} :
    (orBack r).Gives c o d ↔
      (o.isSome ∧ r.Gives c o d) ∨ (o = none ∧ d = c ∧ ∃ e, r.Gives c none e) := by
  rcases hrun : r.run c with ⟨err | _ | a, e, he⟩
  · simp [Gives, orBack, hrun]
  · simp only [Gives, orBack, hrun, Except.ok.injEq]
    constructor
    · rintro ⟨rfl, rfl⟩
      exact .inr ⟨rfl, rfl, e, trivial, rfl⟩
    · rintro (⟨hsome, rfl, -⟩ | ⟨rfl, rfl, -⟩)
      · cases hsome
      · exact ⟨rfl, rfl⟩
  · simp only [Gives, orBack, hrun, Except.ok.injEq]
    constructor
    · rintro ⟨rfl, rfl⟩
      exact .inl ⟨rfl, rfl, rfl⟩
    · rintro (⟨-, h⟩ | ⟨rfl, -, _, h, -⟩)
      · exact h
      · cases h

theorem not_gives_fail {a : α} : ¬(fail err : Reader α).Gives c a d :=
  fun h => nomatch h.1

theorem not_gives_fail_bind {f : α → Reader β} {b : β} :
    ¬((fail err : Reader α) >>= f).Gives c b d :=
  fun h => nomatch h.1

theorem gives_takeWhile {u v : List Char} (hu : ∀ c ∈ u, s c = true)
    (hv : ∀ c ∈ v.head?, s c = false) : (takeWhile s).Gives ⟨p, u ++ v⟩ u ⟨p + u.length, v⟩ := by
  have htake : (u ++ v).takeWhile s = u := by
    rw [List.takeWhile_append_of_pos hu]
    cases v <;> simp_all
  refine ⟨congrArg Except.ok htake, ?_⟩
  show Cursor.advance _ ((u ++ v).takeWhile s).length = _
  rw [htake]
  simp [Cursor.advance]

theorem gives_eat (x : Char) (p : Nat) (cs : List Char) :
    (eat x).Gives ⟨p, x :: cs⟩ true ⟨p + 1, cs⟩ := by
  simp [Gives, eat, takeBy, Cursor.advance]

/-! ## Local readers -/

/-- What the reader reads of `w` before `X`, it reads of `w` before `Y`. -/
def LocalAt (X Y : List Char) (r : Reader α) (p : Nat) (w : List Char) : Prop :=
  ∀ a q w', r.Gives ⟨p, w ++ X⟩ a ⟨q, w' ++ X⟩ → r.Gives ⟨p, w ++ Y⟩ a ⟨q, w' ++ Y⟩

/-- What the reader reads before `X`, it reads before `Y`. -/
def Local (X Y : List Char) (r : Reader α) : Prop :=
  ∀ p w, LocalAt X Y r p w

/-- At `w`, the reader is local and does not go into `X`. -/
def ConfinedAt (X Y : List Char) (r : Reader α) (p : Nat) (w : List Char) : Prop :=
  ∀ a d, r.Gives ⟨p, w ++ X⟩ a d →
    ∃ q w', d = ⟨q, w' ++ X⟩ ∧ r.Gives ⟨p, w ++ Y⟩ a ⟨q, w' ++ Y⟩

/-- A local reader that does not go into `X`. -/
def Confined (X Y : List Char) (r : Reader α) : Prop :=
  ∀ p w, ConfinedAt X Y r p w

theorem ConfinedAt.localAt {r : Reader α} (h : ConfinedAt X Y r p w) : LocalAt X Y r p w := by
  intro a q w' hr
  obtain ⟨q', v, hend, hv⟩ := h a _ hr
  obtain ⟨rfl, hrest⟩ := Cursor.mk.inj hend
  rwa [List.append_cancel_right hrest]

theorem Confined.toLocal {r : Reader α} (h : Confined X Y r) : Local X Y r :=
  fun p w => (h p w).localAt

theorem confined_pure (a : α) : Confined X Y (pure a) := by
  rintro p w _ _ ⟨⟨⟩, rfl⟩
  exact ⟨p, w, rfl, rfl, rfl⟩

theorem local_pure (a : α) : Local X Y (pure a) :=
  (confined_pure a).toLocal

theorem local_fail (err : Error) : Local X Y (fail err : Reader α) :=
  fun _ _ _ _ _ h => (not_gives_fail h).elim

theorem local_failAt (k : Nat) (fault : Fault) : Local X Y (failAt k fault : Reader α) :=
  local_fail _

theorem local_failAt_bind (k : Nat) (fault : Fault) (f : α → Reader β) :
    Local X Y (failAt k fault >>= f) :=
  fun _ _ _ _ _ h => (not_gives_fail_bind h).elim

theorem LocalAt.bind {r : Reader α} {f : α → Reader β} (hr : LocalAt X Y r p w)
    (hf : ∀ a, Local X Y (f a)) : LocalAt X Y (r >>= f) p w := by
  intro b q w' h
  obtain ⟨a, ⟨k, rest⟩, ha, hb⟩ := gives_bind.1 h
  obtain ⟨u, rfl⟩ := hb.exists_append
  exact gives_bind.2 ⟨a, _, hr a k _ ha, hf a k _ b q w' hb⟩

theorem Local.bind {r : Reader α} {f : α → Reader β} (hr : Local X Y r)
    (hf : ∀ a, Local X Y (f a)) : Local X Y (r >>= f) :=
  fun p w => (hr p w).bind hf

theorem ConfinedAt.bind {r : Reader α} {f : α → Reader β} (hr : ConfinedAt X Y r p w)
    (hf : ∀ a, Confined X Y (f a)) : ConfinedAt X Y (r >>= f) p w := by
  intro b e h
  obtain ⟨a, d, ha, hb⟩ := gives_bind.1 h
  obtain ⟨k, v, rfl, ha'⟩ := hr a d ha
  obtain ⟨q, w', he, hb'⟩ := hf a k v b e hb
  exact ⟨q, w', he, gives_bind.2 ⟨a, _, ha', hb'⟩⟩

theorem Confined.bind {r : Reader α} {f : α → Reader β} (hr : Confined X Y r)
    (hf : ∀ a, Confined X Y (f a)) : Confined X Y (r >>= f) :=
  fun p w => (hr p w).bind hf

theorem local_pure_bind {a : α} {f : α → Reader β} (h : Local X Y (f a)) :
    Local X Y (pure a >>= f) := h

theorem local_ite {c : Prop} [Decidable c] {r r' : Reader α} (h : Local X Y r) (h' : Local X Y r') :
    Local X Y (if c then r else r') := by
  split
  · exact h
  · exact h'

theorem confined_ite {c : Prop} [Decidable c] {r r' : Reader α} (h : Confined X Y r)
    (h' : Confined X Y r') : Confined X Y (if c then r else r') := by
  split
  · exact h
  · exact h'

theorem local_position : Local X Y position := by
  rintro p w _ q w' ⟨⟨⟩, hend⟩
  obtain ⟨rfl, hrest⟩ := Cursor.mk.inj hend
  obtain rfl := List.append_cancel_right hrest
  exact ⟨rfl, rfl⟩

theorem advance_append (h : n ≤ w.length) (Z : List Char) :
    (⟨p, w ++ Z⟩ : Cursor).advance n = ⟨p + n, w.drop n ++ Z⟩ := by
  simp [Cursor.advance, List.take_append_of_le_length h, List.drop_append_of_le_length h, h]

theorem confined_takeBy {f : List Char → α × Nat}
    (h : ∀ w, f (w ++ X) = f (w ++ Y) ∧ (f (w ++ Y)).2 ≤ w.length) : Confined X Y (takeBy f) := by
  rintro p w _ _ ⟨⟨⟩, rfl⟩
  obtain ⟨heq, hle⟩ := h w
  refine ⟨_, _, ?_, ?_, advance_append hle Y⟩
  · show Cursor.advance _ _ = _
    rw [heq]
    exact advance_append hle X
  · show Except.ok (f (w ++ Y)).1 = .ok (f (w ++ X)).1
    rw [heq]

/-- A reader that goes back has seen nothing of what follows. -/
theorem ConfinedAt.orBack {r : Reader (Option α)} (h : ConfinedAt X Y r p w) :
    LocalAt X Y (orBack r) p w := by
  intro o q w' hr
  rcases gives_orBack.1 hr with ⟨hsome, hr⟩ | ⟨rfl, hend, e, hr⟩
  · exact gives_orBack.2 (.inl ⟨hsome, h.localAt o q w' hr⟩)
  · obtain ⟨k, v, -, hv⟩ := h none e hr
    obtain ⟨rfl, hrest⟩ := Cursor.mk.inj hend
    obtain rfl := List.append_cancel_right hrest
    exact gives_orBack.2 (.inr ⟨rfl, rfl, _, hv⟩)

/-- What has been read of `X` is not there any more. -/
theorem not_gives_of_cons {r : Reader α} {a : α} : ¬r.Gives ⟨p, X⟩ a ⟨q, w' ++ x :: X⟩ := by
  intro h
  have hlength := h.reaches.length_le
  simp only [List.length_append, List.length_cons] at hlength
  omega

theorem confined_eat (h : X.head? ≠ some x ∧ Y.head? ≠ some x) : Confined X Y (eat x) := by
  refine confined_takeBy fun w => ?_
  cases w with
  | nil => simp [h.1, h.2]
  | cons c w =>
    refine ⟨rfl, ?_⟩
    show (if some c = some x then (true, 1) else (false, 0) : Bool × Nat).2 ≤ w.length + 1
    split
    · exact Nat.le_add_left 1 w.length
    · exact Nat.zero_le _

theorem confined_takeWhile (h : X.takeWhile s = [] ∧ Y.takeWhile s = []) :
    Confined X Y (takeWhile s) := by
  refine confined_takeBy fun w => ?_
  simp only [List.takeWhile_append, h.1, h.2, List.append_nil, true_and]
  split
  · exact Nat.le_refl _
  · exact (List.takeWhile_prefix s).length_le

end Reader

section

variable {α β : Type} {Y : List Char} (t : Twin X Y)

include t

theorem Twin.eats (hx : x ≠ '(' ∧ x ≠ ')') : Confined X Y (eat x) := by
  refine confined_eat ?_
  cases t <;> simp [hx.1.symm, hx.2.symm]

theorem Twin.takes (hs : s '(' = false ∧ s ')' = false) : Confined X Y (takeWhile s) := by
  refine confined_takeWhile ?_
  cases t <;> simp [hs.1, hs.2]

theorem Twin.takesAtMost (n : Nat) (hs : s '(' = false ∧ s ')' = false) :
    Confined X Y (takeAtMost n s) := by
  have htake : ∀ k, (X.take k).takeWhile s = [] ∧ (Y.take k).takeWhile s = [] := by
    intro k
    cases k with
    | zero => simp
    | succ k => cases t <;> simp [hs.1, hs.2]
  refine confined_takeBy fun w => ?_
  simp only [List.take_append, List.takeWhile_append, htake, List.append_nil, true_and]
  split
  · exact List.length_take_le' ..
  · exact Nat.le_trans (List.takeWhile_prefix s).length_le (List.length_take_le' ..)

/-- At the end there is no character to take. -/
theorem local_char {f : Option Char → Reader β} (hsome : ∀ c, Local X Y (f (some c)))
    (hnone : ∀ c b d, ¬(f none).Gives c b d) : Local X Y (char? >>= f) := by
  intro p w b q w' h
  obtain ⟨_, _, ⟨⟨⟩, rfl⟩, hb⟩ := gives_bind.1 h
  cases w with
  | cons c w => exact gives_bind.2 ⟨some c, _, ⟨rfl, rfl⟩, hsome c _ w b q w' hb⟩
  | nil =>
    cases t with
    | opener => exact (not_gives_of_cons hb).elim
    | close => exact (hnone _ _ _ hb).elim

/-- A look at the next character that makes no difference at the end. -/
theorem local_peek {c : Option Char → Prop} [DecidablePred c] {r r' : Reader β}
    (hopen : ¬c (some '(')) (hclose : ¬c (some ')')) (hend : ¬c none)
    (hr : ∀ x, c (some x) → ∀ p w, LocalAt X Y r p (x :: w)) (hr' : Local X Y r') :
    Local X Y (peek? >>= fun o => if c o then r else r') := by
  intro p w b q w' h
  obtain ⟨_, _, ⟨⟨⟩, rfl⟩, hb⟩ := gives_bind.1 h
  refine gives_bind.2 ⟨_, _, ⟨rfl, rfl⟩, ?_⟩
  cases w with
  | cons x w =>
    change (if c (some x) then r else r').Gives _ _ _ at hb
    change (if c (some x) then r else r').Gives _ _ _
    split at hb
    next hx =>
      rw [if_pos hx]
      exact hr x hx p w b q w' hb
    next hx =>
      rw [if_neg hx]
      exact hr' p (x :: w) b q w' hb
  | nil =>
    have hX : ¬c X.head? := by cases t <;> assumption
    have hY : ¬c Y.head? := by cases t <;> assumption
    change (if c X.head? then r else r').Gives _ _ _ at hb
    change (if c Y.head? then r else r').Gives _ _ _
    rw [if_neg hX] at hb
    rw [if_neg hY]
    exact hr' p [] b q w' hb

/-- A look at the next character, which there must be. -/
theorem local_peek_some {f : Option Char → Reader β}
    (hsome : ∀ x p w, LocalAt X Y (f (some x)) p (x :: w)) (hopen : Local X Y (f (some '(')))
    (hnone : ∀ p b d, ¬(f none).Gives ⟨p, []⟩ b d) : Local X Y (peek? >>= f) := by
  intro p w b q w' h
  obtain ⟨_, _, ⟨⟨⟩, rfl⟩, hb⟩ := gives_bind.1 h
  refine gives_bind.2 ⟨_, _, ⟨rfl, rfl⟩, ?_⟩
  cases w with
  | cons x w => exact hsome x p w b q w' hb
  | nil =>
    cases t with
    | opener => exact hopen p [] b q w' hb
    | close => exact (hnone _ _ _ hb).elim

/-- A stretch up to a character that must come. -/
theorem local_until {x : Char} (hx : x ≠ '(') {f : List Char → Bool → Reader β}
    (htrue : ∀ n, Local X Y (f n true)) (hfalse : ∀ n c b d, ¬(f n false).Gives c b d) :
    Local X Y (takeWhile (· != x) >>= fun n => eat x >>= f n) := by
  intro p w b q w' h
  obtain ⟨n, d, hn, hb⟩ := gives_bind.1 h
  obtain ⟨found, e, hfound, hb⟩ := gives_bind.1 hb
  by_cases hmem : x ∈ w
  · obtain ⟨u, v, rfl, hu⟩ := List.eq_append_cons_of_mem hmem
    have hstretch : ∀ Z, (takeWhile (· != x)).Gives ⟨p, u ++ x :: v ++ Z⟩ u
        ⟨p + u.length, x :: v ++ Z⟩ := by
      intro Z
      rw [List.append_assoc]
      exact gives_takeWhile (fun c hc => bne_iff_ne.2 (ne_of_mem_of_not_mem hc hu)) (by simp)
    obtain ⟨rfl, rfl⟩ := hn.unique (hstretch X)
    obtain ⟨rfl, rfl⟩ := hfound.unique (gives_eat x _ _)
    refine gives_bind.2 ⟨_, _, hstretch Y, gives_bind.2 ⟨true, _, gives_eat x _ _, ?_⟩⟩
    exact htrue _ _ v b q w' hb
  · -- the stretch takes all of `w`, and `x` does not come at the end
    have hne : ∀ c ∈ w, (c != x) = true := fun c hc =>
      bne_iff_ne.2 (ne_of_mem_of_not_mem hc hmem)
    cases t with
    | opener hc cs =>
      have hlength := (hfound.reaches.trans hb.reaches).length_le
      obtain ⟨-, rfl⟩ := hn
      change _ ≤ ((w ++ _).drop ((w ++ '(' :: '?' :: _ :: cs).takeWhile (· != x)).length).length
        at hlength
      have hopen : ('(' != x) = true := bne_iff_ne.2 hx.symm
      rw [List.takeWhile_append_of_pos hne, List.takeWhile_cons, hopen] at hlength
      simp only [List.length_append, List.length_cons, List.length_drop, if_true] at hlength
      omega
    | close =>
      obtain ⟨rfl, rfl⟩ := hn.unique (gives_takeWhile hne (by simp))
      obtain ⟨⟨⟩, -⟩ := hfound
      exact (hfalse _ _ _ _ hb).elim

omit t in
theorem confinedAt_skip (x : Char) (p : Nat) (w : List Char) :
    ConfinedAt X Y (skip 1) p (x :: w) := by
  rintro _ _ ⟨⟨⟩, rfl⟩
  exact ⟨p + 1, w, rfl, rfl, rfl⟩

omit t in
theorem localAt_skip {r : Reader β} (hr : Local X Y r) (x : Char) (p : Nat) (w : List Char) :
    LocalAt X Y (do skip 1; r) p (x :: w) :=
  (confinedAt_skip x p w).localAt.bind fun _ => hr

omit t in
theorem gives_nextWord_cons {r : Nat → Char → Reader α} {cs : List Char} {o : Option α} :
    (nextWord r).Gives ⟨p, x :: cs⟩ o d ↔
      ∃ a, o = some a ∧ (r p x).Gives ⟨p + 1, cs⟩ a d := by
  show ((r p x).run ⟨p + 1, cs⟩).1.map some = .ok o ∧ _ = d ↔ _
  cases hrun : ((r p x).run ⟨p + 1, cs⟩).1 with
  | error e => simp [Gives, hrun, Except.map]
  | ok a =>
    simp only [Gives, hrun, Except.map, Except.ok.injEq]
    exact ⟨fun ⟨ho, hd⟩ => ⟨a, ho.symm, rfl, hd⟩, fun ⟨_, ho, ha, hd⟩ => ⟨ha ▸ ho.symm, hd⟩⟩

theorem gives_nextWord {r : Nat → Char → Reader α} {a : α}
    (hr : ∀ x w, (r p x).Gives ⟨p + 1, w ++ X⟩ a ⟨q, w' ++ X⟩ → (r p x).Gives ⟨p + 1, w ++ Y⟩ a ⟨q, w' ++ Y⟩)
    (h : (nextWord r).Gives ⟨p, w ++ X⟩ (some a) ⟨q, w' ++ X⟩) :
    (nextWord r).Gives ⟨p, w ++ Y⟩ (some a) ⟨q, w' ++ Y⟩ := by
  cases w with
  | cons x w =>
    obtain ⟨_, ⟨⟩, h⟩ := gives_nextWord_cons.1 h
    exact gives_nextWord_cons.2 ⟨a, rfl, hr x w h⟩
  | nil =>
    cases t with
    | opener =>
      obtain ⟨_, -, h⟩ := gives_nextWord_cons.1 h
      exact (not_gives_of_cons h).elim
    | close => cases h.1

/-- A word that must come. -/
theorem local_word {r : Nat → Char → Reader α} (hr : ∀ p x, Local X Y (r p x))
    {f : Option α → Reader β} (hf : ∀ a, Local X Y (f (some a)))
    (hnone : ∀ p b d, ¬(f none).Gives ⟨p, []⟩ b d) : Local X Y (nextWord r >>= f) := by
  intro p w b q w' h
  obtain ⟨o, ⟨m, rest⟩, ho, hb⟩ := gives_bind.1 h
  obtain ⟨u, rfl⟩ := hb.exists_append
  cases o with
  | some a =>
    refine gives_bind.2 ⟨some a, _, gives_nextWord t (fun x v => ?_) ho, hf a _ _ b q w' hb⟩
    exact hr p x _ v a m u
  | none =>
    have hend : w ++ X = [] := by
      rcases hcs : w ++ X with _ | ⟨x, cs⟩
      · rfl
      · rw [hcs] at ho
        obtain ⟨_, ⟨⟩, -⟩ := gives_nextWord_cons.1 ho
    have hrest := ho.reaches.length_le
    simp only [hend, List.length_nil, Nat.le_zero, List.length_eq_zero_iff] at hrest
    rw [hrest] at hb
    exact (hnone m b _ hb).elim

/-! ## Words -/

theorem local_property (start : Nat) (upper : Bool) : Local X Y (Escape.property start upper) := by
  unfold Escape.property
  refine (t.eats (by decide)).toLocal.bind fun _ => local_ite (local_failAt_bind _ _ _) ?_
  refine (t.eats (by decide)).toLocal.bind fun caret => ?_
  refine local_until t (by decide) (fun name => ?_) fun _ _ _ _ => not_gives_fail_bind
  exact local_ite (local_failAt_bind _ _ _) (local_ite (local_failAt_bind _ _ _) (local_pure _))

theorem localAt_braced (start radix p : Nat) (x : Char) (w : List Char) :
    LocalAt X Y (Escape.braced start radix) p (x :: w) := by
  refine localAt_skip ?_ x p w
  refine (t.takes (s := isDigit radix) ⟨rfl, rfl⟩).toLocal.bind fun digits =>
    local_char t (fun c => local_ite (local_failAt_bind _ _ _) ?_) fun _ _ _ => not_gives_fail_bind
  split
  · exact local_pure _
  · exact local_failAt _ _

theorem local_hex (start : Nat) : Local X Y (Escape.hex start) := by
  refine local_peek t (by simp) (by simp) (by simp) (fun x _ p w => localAt_braced t _ _ p x w) ?_
  exact (t.takesAtMost 2 (by decide)).toLocal.bind fun _ => local_pure _

theorem local_fixedHex (start : Nat) : ∀ count value : Nat,
    Local X Y (Escape.fixedHex start count value)
  | 0, _ => local_pure _
  | count + 1, value => by
    refine local_char t (fun c => ?_) fun _ _ _ => not_gives_fail
    split
    · exact local_ite (local_fixedHex start count _) (local_failAt _ _)
    · exact local_failAt _ _

theorem local_unicode (start : Nat) : Local X Y (Escape.unicode start) := by
  refine (local_fixedHex t start 4 0).bind fun value => ?_
  split
  · exact local_pure _
  · exact local_failAt _ _

theorem local_control (start : Nat) : Local X Y (Escape.control start) :=
  local_char t (fun _ => local_pure _) fun _ _ _ => not_gives_fail

theorem local_shared (start : Nat) : Local X Y (Escape.shared start) := by
  have hchar : ∀ {r : Reader Char}, Local X Y r →
      Local X Y (do return Escaped.char (← r) : Reader Escaped) :=
    fun h => h.bind fun _ => local_pure _
  refine local_char t (fun c => ?_) fun _ _ _ => not_gives_fail
  split
  case h_1 => contradiction
  all_goals
    first
    | exact local_pure _
    | exact (local_property t start _).bind fun _ => local_pure _
    | exact hchar (local_hex t start)
    | exact hchar (local_unicode t start)
    | exact hchar ((t.takesAtMost 2 (by decide)).toLocal.bind fun _ => local_pure _)
    | exact hchar (local_control t start)
    | exact local_peek t (by simp) (by simp) (by simp)
        (fun x _ p w => (localAt_braced t _ _ p x w).bind fun _ => local_pure _) (local_pure _)

theorem local_suffixed (min : Nat) (max : Option Nat) : Local X Y (suffixed min max) := by
  refine (t.eats (by decide)).toLocal.bind fun _ => local_ite (local_pure _) ?_
  exact (t.eats (by decide)).toLocal.bind fun _ => local_ite (local_pure _) (local_pure _)

theorem confined_count : Confined X Y count :=
  (t.takes (by decide)).bind fun _ => confined_pure _

theorem confined_intervalEnd (min : Nat) (max : Option Nat) :
    Confined X Y (intervalEnd min max) := by
  refine (t.eats (by decide)).bind fun _ => confined_ite (confined_pure _) ?_
  refine confined_ite ?_ (confined_pure _)
  exact (t.eats (by decide)).bind fun _ => confined_ite (confined_pure _) (confined_pure _)

theorem local_interval : Local X Y interval := by
  intro p w
  refine ConfinedAt.orBack ((confined_count t p w).bind fun low => ?_)
  refine (t.eats (by decide)).bind fun _ => confined_ite ?_ ?_
  · exact (confined_count t).bind fun high =>
      confined_ite (confined_pure _) (confined_intervalEnd t _ _)
  · split
    · exact confined_intervalEnd t _ _
    · exact confined_pure _

theorem local_groupName (closer : Char) : Local X Y (groupName closer) := by
  refine local_position.bind fun start => ?_
  refine (t.takes (by decide +kernel)).toLocal.bind fun name => ?_
  refine local_char t (fun c => ?_) fun _ _ _ => not_gives_fail_bind
  exact local_ite (local_failAt_bind _ _ _) (local_ite (local_failAt_bind _ _ _) (local_pure _))

theorem local_flagGroup (start : Nat) : Local X Y (flagGroup start) := by
  have hletters : Local X Y (takeWhile fun c => c = 'i' || c = 'm' || c = 'x') :=
    (t.takes (by decide)).toLocal
  refine hletters.bind fun on => (t.eats (by decide)).toLocal.bind fun _ =>
    local_ite (hletters.bind fun off => ?_) (local_pure_bind ?_)
  all_goals
    refine local_position.bind fun place =>
      local_char t (fun c => ?_) fun _ _ _ => not_gives_fail
    split
    · exact local_pure _
    · exact local_pure _
    · exact local_failAt _ _
    · exact local_failAt _ _

theorem local_groupOpener (start : Nat) : Local X Y (groupOpener start) := by
  have hnamed : ∀ closer, Local X Y (do return Token.groupOpen (.named (← groupName closer))) :=
    fun closer => (local_groupName t closer).bind fun _ => local_pure _
  refine (t.eats (by decide)).toLocal.bind fun _ => local_ite (local_pure _) ?_
  refine local_peek t (by simp) (by simp) (by simp) (fun _ _ p w => local_flagGroup t start p _) ?_
  refine local_char t (fun c => ?_) fun _ _ _ => not_gives_fail
  split
  all_goals
    first
    | exact local_pure _
    | exact hnamed _
    | exact local_failAt _ _
    | exact local_fail _
    | skip
  -- what is left is `(?<`, which opens a look around or a named group
  refine (t.eats (by decide)).toLocal.bind fun _ => local_ite (local_pure _) ?_
  exact (t.eats (by decide)).toLocal.bind fun _ => local_ite (local_pure _) (hnamed _)

theorem local_referenceBody (start : Nat) (kind : ReferenceKind) {closer : Char}
    (hcloser : closer ≠ '(') : Local X Y (referenceBody start kind closer) := by
  refine local_until t hcloser (fun content => local_ite (local_failAt_bind _ _ _) ?_)
    fun _ _ _ _ => not_gives_fail_bind
  split
  · exact local_pure _
  · exact local_fail _

theorem local_reference (start : Nat) (kind : ReferenceKind) :
    Local X Y (reference start kind) := by
  refine local_char t (fun c => ?_) fun _ _ _ => not_gives_fail_bind
  split
  · exact local_pure_bind (local_referenceBody t start kind (by decide))
  · exact local_pure_bind (local_referenceBody t start kind (by decide))
  · exact local_failAt_bind _ _ _

theorem local_sharedWord {α : Type} (literal : Char → α) (set : CharSet → α) (start : Nat) :
    Local X Y (sharedWord literal set start) := by
  refine (local_shared t start).bind fun x => ?_
  cases x <;> exact local_pure _

theorem local_escape (start : Nat) : Local X Y (escape start) := by
  have hother : ∀ c, Local X Y (if ('1' ≤ c && c ≤ '9') = true then
      (do return Token.backreference (.number ((← count).getD 0)))
      else sharedWord Token.literal .set start) :=
    fun c => local_ite ((confined_count t).toLocal.bind fun _ => local_pure _)
      (local_sharedWord t _ _ start)
  refine local_peek_some t (fun x p w => ?_) (hother '(') fun _ _ _ => not_gives_fail
  split
  all_goals
    first
    | exact localAt_skip (local_pure _) x p w
    | exact localAt_skip ((local_reference t _ _).bind fun _ => local_pure _) x p w
    | exact hother _ p _
    | exact local_failAt _ _ p _

theorem local_tokenFrom (start : Nat) (c : Char) : Local X Y (tokenFrom start c) := by
  unfold tokenFrom
  split
  case h_7 => exact local_groupOpener t start
  case h_12 => exact local_escape t start
  case h_11 => exact (local_interval t).bind fun _ => local_pure _
  all_goals
    first
    | exact local_pure _
    | exact local_suffixed t _ _
    | exact (t.eats (by decide)).toLocal.bind fun _ => local_pure _

theorem localAt_posix (p : Nat) (x : Char) (w : List Char) : LocalAt X Y posix p (x :: w) := by
  refine ((confinedAt_skip x p w).bind fun _ => ?_).orBack
  refine (t.eats (by decide)).bind fun _ =>
    (t.takes (by decide)).bind fun name => confined_ite (confined_pure _) ?_
  refine (t.eats (by decide)).bind fun _ => confined_ite ?_ (confined_pure _)
  exact (t.eats (by decide)).bind fun _ => confined_ite (confined_pure _) (confined_pure _)

theorem local_classTokenFrom (start : Nat) (c : Char) : Local X Y (classTokenFrom start c) := by
  have hshared := local_sharedWord t ClassToken.literal .set start
  have hcaret : Local X Y (do return ClassToken.nested (← eat '^')) :=
    (t.eats (by decide)).toLocal.bind fun _ => local_pure _
  unfold classTokenFrom
  split
  case h_4 =>
    refine local_peek t (by simp) (by simp) (by simp) (fun x _ p w => ?_) hcaret
    refine (localAt_posix t p x w).bind fun o => ?_
    cases o with
    | none => exact hcaret
    | some s => exact local_pure _
  case h_5 =>
    refine local_peek_some t (fun x p w => ?_) ?_ fun p b d h => ?_
    · split
      · exact localAt_skip (local_pure _) x p w
      · have hoctal := (t.takesAtMost 3 (s := isDigit 8) ⟨rfl, rfl⟩).toLocal
        exact local_ite (hoctal.bind fun _ => local_pure _) hshared p _
      · contradiction
    · exact hshared
    · obtain ⟨_, _, hfail, -⟩ := gives_bind.1 h
      cases hfail.1
  case h_2 => exact (t.eats (by decide)).toLocal.bind fun _ => local_pure _
  all_goals exact local_pure _

end

/-! ## Gaps -/

theorem gapLength_outside {extended : Bool} {n : Nat} {c : Char} {cs : List Char}
    (h : ∀ v, c :: cs ≠ '(' :: '?' :: '#' :: v) : gapLength extended .outside n (c :: cs)
      = if extended && Unicode.isWhitespace c then gapLength extended .outside (n + 1) cs
        else if extended && c = '#' then gapLength extended .line (n + 1) cs else .ok n := by
  rw [gapLength]
  rintro v rfl rfl
  exact h v rfl

theorem isWhitespace_open : Unicode.isWhitespace '(' = false := by decide +kernel

theorem isWhitespace_close : Unicode.isWhitespace ')' = false := by decide +kernel

section

variable {Y : List Char} (t : Twin X Y)

include t

/-- A comment that opens before the texts opens in what comes before them. -/
theorem Twin.comment {Z : List Char} (hZ : Z = X ∨ Z = Y) {w cs : List Char}
    (h : w ++ Z = '(' :: '?' :: '#' :: cs) : ∃ v, w = '(' :: '?' :: '#' :: v := by
  rcases w with _ | ⟨a, _ | ⟨b, _ | ⟨c, v⟩⟩⟩
  · cases t <;> rcases hZ with rfl | rfl <;> simp_all
  · cases t <;> rcases hZ with rfl | rfl <;> simp_all
  · cases t <;> rcases hZ with rfl | rfl <;> simp_all
  · simp only [List.cons_append, List.cons.injEq] at h
    exact ⟨v, by rw [h.1, h.2.1, h.2.2.1]⟩

theorem gapLength_twin {g : Gap} {m : Nat} (hX : X = [] → g = .outside ∧ '#' ∉ w)
    (h : gapLength extended g n (w ++ X) = .ok m) (hm : m ≤ n + w.length) :
    gapLength extended g n (w ++ Y) = .ok m := by
  -- at the end of `w` there is no blank and no comment
  have hend : ∀ n, gapLength extended .outside n Y = .ok n := by
    intro n
    cases t with
    | opener hc => rw [gapLength_outside (by simp [hc])]; simp [isWhitespace_open]
    | close => rw [gapLength_outside (by simp)]; simp [isWhitespace_close]
  -- inside a comment, or before a blank, `w` is not at its end
  have hmore : ∀ {c cs n v g'}, v ++ X = c :: cs → gapLength extended g' (n + 1) cs = .ok m →
      m ≤ n + v.length → ∃ u, v = c :: u ∧ cs = u ++ X ∧ m ≤ n + 1 + u.length := by
    intro c cs n v g' hv hnext hle
    have hbound := (gapLength_bounds hnext).1
    cases v with
    | nil => simp at hle; omega
    | cons x u =>
      obtain ⟨rfl, rfl⟩ := List.cons.inj hv
      exact ⟨u, rfl, rfl, by simp at hle; omega⟩
  have hplain : ∀ {c u}, (∀ cs, c = '(' → u ++ X = '?' :: '#' :: cs → False) →
      ∀ v, c :: (u ++ Y) ≠ '(' :: '?' :: '#' :: v := by
    intro c u hopen v hv
    obtain ⟨v', hv'⟩ := t.comment (.inr rfl) (w := c :: u) hv
    obtain ⟨rfl, rfl⟩ := List.cons.inj hv'
    exact hopen (v' ++ X) rfl rfl
  generalize hcs : w ++ X = cs at h
  fun_induction gapLength extended g n cs generalizing w with
  | case1 n cs ih =>
    obtain ⟨v, rfl⟩ := t.comment (.inl rfl) hcs
    obtain rfl : cs = v ++ X := by simpa using hcs.symm
    refine ih (fun hnil => absurd (hX hnil).2 (by simp)) ?_ rfl h
    simp at hm
    omega
  | case2 n c cs hopen hblank ih =>
    obtain ⟨u, rfl, rfl, hm'⟩ := hmore hcs h hm
    rw [List.cons_append, gapLength_outside (hplain hopen), if_pos hblank]
    exact ih (fun hnil => ⟨rfl, fun hu => (hX hnil).2 (List.mem_cons_of_mem c hu)⟩) hm' rfl h
  | case3 n c cs hopen hblank hcomment ih =>
    obtain ⟨u, rfl, rfl, hm'⟩ := hmore hcs h hm
    rw [List.cons_append, gapLength_outside (hplain hopen), if_neg hblank, if_pos hcomment]
    simp only [Bool.and_eq_true, decide_eq_true_eq] at hcomment
    exact ih (fun hnil => absurd (hX hnil).2 (by simp [hcomment.2])) hm' rfl h
  | case4 n c cs hopen hblank hcomment =>
    cases h
    cases w with
    | nil => exact hend _
    | cons x u =>
      obtain ⟨rfl, rfl⟩ := List.cons.inj hcs
      rw [List.cons_append, gapLength_outside (hplain hopen), if_neg hblank, if_neg hcomment]
  | case5 n c cs ih | case6 _ n c cs ih | case7 _ n c cs ih =>
    obtain ⟨u, rfl, rfl, hm'⟩ := hmore hcs h hm
    exact ih (fun hnil => absurd (hX hnil).1 (by simp)) hm' rfl h
  | case8 n =>
    cases h
    obtain ⟨rfl, -⟩ := List.append_eq_nil_iff.1 hcs
    exact hend _
  | case9 n =>
    obtain ⟨-, hnil⟩ := List.append_eq_nil_iff.1 hcs
    cases (hX hnil).1
  | case10 | case11 => cases h

/-- A gap in front of a word. -/
theorem localAt_skipGap (hw : X = [] → '#' ∉ w) : LocalAt X Y (skipGap extended) p w := by
  have hgap : ∀ {cs n}, gapLength extended .outside 0 cs = .ok n →
      (skipGap extended).Gives ⟨p, cs⟩ () ((⟨p, cs⟩ : Cursor).advance n) := by
    intro cs n hn
    simp [Gives, skipGap, hn]
  rintro ⟨⟩ q w' h
  cases hn : gapLength extended .outside 0 (w ++ X) with
  | error s => simp [Gives, skipGap, hn] at h
  | ok n =>
    obtain ⟨-, hend⟩ := (hgap hn).unique h
    have hlength := congrArg (·.rest.length) hend
    have hbound := (gapLength_bounds hn).2
    simp only [Cursor.advance, List.length_drop, List.length_append] at hlength hbound
    have hle : n ≤ w.length := by omega
    have hY := hgap (gapLength_twin t (fun hnil => ⟨rfl, hw hnil⟩) hn (by omega))
    rw [advance_append hle] at hend hY
    obtain ⟨rfl, hrest⟩ := Cursor.mk.inj hend
    rwa [← List.append_cancel_right hrest]

/-- **A word before `X` is the same before `Y`.** A comment up to the end of the line would hide a
closing parenthesis. -/
theorem gives_nextToken {k : Token} (hw : X = [] → '#' ∉ w)
    (h : (nextToken extended).Gives ⟨p, w ++ X⟩ (some k) ⟨q, w' ++ X⟩) :
    (nextToken extended).Gives ⟨p, w ++ Y⟩ (some k) ⟨q, w' ++ Y⟩ := by
  obtain ⟨_, ⟨m, rest⟩, hgap, hword⟩ := gives_bind.1 h
  obtain ⟨u, rfl⟩ := hword.exists_append
  refine gives_bind.2 ⟨_, _, localAt_skipGap t hw _ _ _ hgap, ?_⟩
  exact gives_nextWord t (fun x v => local_tokenFrom t m x _ v k q w') hword

end

/-! ## Classes -/

/-- Whether a character of a class begins a range before the text. -/
def rangeFollows : List Char → Bool
  | '-' :: x :: _ => x != ']'
  | _ => false

section

variable {Y : List Char} (t : Twin X Y)

include t

theorem Twin.rangeFollows_eq (h : ¬(X = [] ∧ w = ['-'])) :
    rangeFollows (w ++ X) = rangeFollows (w ++ Y) := by
  rcases w with _ | ⟨a, _ | ⟨b, w⟩⟩
  · cases t <;> rfl
  · by_cases ha : a = '-'
    · subst ha
      cases t with
      | opener => rfl
      | close => exact absurd ⟨rfl, rfl⟩ h
    · cases t <;> simp [rangeFollows, ha]
  · by_cases ha : a = '-'
    · subst ha
      rfl
    · simp [rangeFollows, ha]

theorem local_classLiteral_range (c : Char) (place : Nat) : Local X Y (do
    let _ ← nextClassToken
    match ← nextClassToken with
    | some (.literal last) =>
      if c ≤ last then return ClassItem.range c last else failAt place .emptyRange
    | _ => failAt place .invalidRangeEnd) := by
  refine local_word t (local_classTokenFrom t) (fun _ => ?_) fun _ _ _ h => ?_
  · refine local_word t (local_classTokenFrom t) (fun k => ?_) fun _ _ _ => not_gives_fail
    split
    · exact local_ite (local_pure _) (local_failAt _ _)
    · exact local_failAt _ _
  · cases h.1

/-- A character of a class, or the range that it begins. A hyphen that is the last character of a
text does not make a range, but a hyphen before a parenthesis does. -/
theorem gives_classLiteral {c : Char} {i : ClassItem} (hw : X = [] → w' ≠ ['-'])
    (h : (classLiteral c).Gives ⟨p, w ++ X⟩ i ⟨q, w' ++ X⟩) :
    (classLiteral c).Gives ⟨p, w ++ Y⟩ i ⟨q, w' ++ Y⟩ := by
  obtain ⟨_, _, ⟨⟨⟩, rfl⟩, h⟩ := gives_bind.1 h
  obtain ⟨_, _, ⟨⟨⟩, rfl⟩, h⟩ := gives_bind.1 h
  refine gives_bind.2 ⟨_, _, ⟨rfl, rfl⟩, gives_bind.2 ⟨_, _, ⟨rfl, rfl⟩, ?_⟩⟩
  change (if (!rangeFollows (w ++ X)) = true then pure (ClassItem.char c) else _ :
    Reader ClassItem).Gives _ _ _ at h
  change (if (!rangeFollows (w ++ Y)) = true then pure (ClassItem.char c) else _ :
    Reader ClassItem).Gives _ _ _
  by_cases hlast : X = [] ∧ w = ['-']
  · obtain ⟨rfl, rfl⟩ := hlast
    have hrest : ['-'] = w' ++ [] := congrArg Cursor.rest h.2
    exact absurd (by simpa using hrest.symm) (hw rfl)
  · rw [← t.rangeFollows_eq hlast]
    exact local_ite (local_pure _) (local_classLiteral_range t c p) p w i q w' h

/-- **A step inside a class before `X` is the same before `Y`**, unless just a hyphen is left. -/
theorem gives_nextClassStep {k : ClassStep} (hw : X = [] → ∀ i, k = .item i → w' ≠ ['-'])
    (h : nextClassStep.Gives ⟨p, w ++ X⟩ (some k) ⟨q, w' ++ X⟩) :
    nextClassStep.Gives ⟨p, w ++ Y⟩ (some k) ⟨q, w' ++ Y⟩ := by
  refine gives_nextWord t (fun x v hv => ?_) h
  obtain ⟨token, ⟨m, rest⟩, htoken, hstep⟩ := gives_bind.1 hv
  obtain ⟨u, rfl⟩ := hstep.exists_append
  refine gives_bind.2 ⟨token, _, local_classTokenFrom t p x _ v token m _ htoken, ?_⟩
  cases token with
  | literal c =>
    obtain ⟨i, _, hliteral, ⟨⟨⟩, rfl⟩⟩ := gives_bind.1 hstep
    exact gives_bind.2 ⟨i, _, gives_classLiteral t (fun hX => hw hX i rfl) hliteral, rfl, rfl⟩
  | nested negated => exact (local_position.bind fun _ => local_pure _) _ _ _ _ _ hstep
  | close | intersection | hyphen => exact local_pure _ _ _ _ _ _ hstep
  | set s => exact local_pure _ _ _ _ _ _ hstep

end

end Diglot.Source
