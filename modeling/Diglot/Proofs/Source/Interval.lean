import Diglot.Proofs.Source.Locality
import Diglot.Proofs.Text.Decimal
import Mathlib.Algebra.Group.Nat.Defs

/-!
# Intervals

What a brace outside bracketed classes stands for. If an interval follows it whose bounds go
upwards, the two are a quantifier with these bounds; if not, the brace stands for itself. This holds
of bounds below 2³² (`interval_exact`). A greater one is taken, but counts as if it were not there
(`Interval.bounds?`): `{2,99999999999}` has no upper bound, and `{99999999999,5}` is read as `{0,5}`
although its bounds go downwards (`large_bound_dropped`).
-/

namespace Diglot.Source

open Text Reader

variable {x : Char} {rest' cs : List Char} {c d : Cursor} {o : Option Token} {b : Nat × Option Nat}

/-- What can stand between the braces of an interval: a digit string, or two with a comma between
them. -/
structure Interval where
  low : List Char
  /-- What follows the comma, if there is one. -/
  high : Option (List Char)

namespace Interval

/-- The text of an interval after its opening brace. -/
def text (i : Interval) : List Char :=
  i.low ++ (i.high.elim [] (',' :: ·) ++ ['\x7d'])

/-- The strings of an interval have only digits. -/
def HasDigits (i : Interval) : Prop :=
  (∀ c ∈ i.low, isDigit 10 c) ∧ ∀ ds ∈ i.high, ∀ c ∈ ds, isDigit 10 c

/-- An interval of the form `{n}`, `{n,}`, `{,m}` or `{n,m}`. -/
def IsWritten (i : Interval) : Prop :=
  i.HasDigits ∧ (i.low ≠ [] ∨ ∃ ds ∈ i.high, ds ≠ [])

/-- The lower bound; without digits it is 0. -/
def min (i : Interval) : Nat :=
  ofDigits 10 i.low

/-- The upper bound; without a comma it is the lower bound, and behind a comma there may be none. -/
def max (i : Interval) : Option Nat :=
  match i.high with
  | none => some i.min
  | some [] => none
  | some ds => some (ofDigits 10 ds)

/-- The bounds go upwards. -/
def IsOrdered (i : Interval) : Prop :=
  ∀ m ∈ i.max, i.min ≤ m

/-- The bounds are 32-bit numbers. -/
def Fits (i : Interval) : Prop :=
  i.min < 2 ^ 32 ∧ ∀ m ∈ i.max, m < 2 ^ 32

/-- The bound that is read from a digit string. One that is no 32-bit number gives none. -/
def bound? (ds : List Char) : Option Nat :=
  number? 10 (2 ^ 32) ds

/-- The bounds that are read from an interval. Bounds that go downwards or are not there at all make
no interval. -/
def bounds? (i : Interval) : Option (Nat × Option Nat) :=
  match i.high with
  | none => (bound? i.low).map fun n => (n, some n)
  | some ds =>
    let min := (bound? i.low).getD 0
    if bound? i.low = none ∧ bound? ds = none ∨ (bound? ds).any (· < min) then none
    else some (min, bound? ds)

end Interval

/-- The quantifier with two bounds before a text: a question mark makes it lazy, unless the bounds
are equal. -/
def quantifierBefore (rest : List Char) (bounds : Nat × Option Nat) : Quantifier :=
  ⟨bounds.1, bounds.2,
    if bounds.2 ≠ some bounds.1 ∧ rest.head? = some '?' then .lazy else .greedy⟩

/-- The cursor behind the question mark of a lazy quantifier, and else where it is. -/
def Cursor.afterSuffix (c : Cursor) (q : Quantifier) : Cursor :=
  if q.kind = .lazy then c.advance 1 else c

/-! ## Digit strings -/

section

variable {p : Nat} {ds rest : List Char}

theorem gives_not_eat (h : rest.head? ≠ some x) : (eat x).Gives ⟨p, rest⟩ false ⟨p, rest⟩ := by
  simp [Gives, eat, takeBy, Cursor.advance, h]

theorem gives_count (hds : ∀ c ∈ ds, isDigit 10 c)
    (hrest : ∀ c ∈ rest.head?, isDigit 10 c = false) :
    count.Gives ⟨p, ds ++ rest⟩ (Interval.bound? ds) ⟨p + ds.length, rest⟩ :=
  gives_bind.2 ⟨_, _, gives_takeWhile hds hrest, rfl, rfl⟩

/-- Every text is a digit string and what follows it. -/
theorem exists_digits (cs : List Char) : ∃ ds rest, cs = ds ++ rest ∧ (∀ c ∈ ds, isDigit 10 c) ∧
    ∀ c ∈ rest.head?, isDigit 10 c = false := by
  refine ⟨cs.takeWhile (isDigit 10), cs.dropWhile (isDigit 10),
    (List.takeWhile_append_dropWhile).symm, fun c hc => List.mem_takeWhile_imp hc, fun c hc => ?_⟩
  have hnot := List.head?_dropWhile_not (isDigit 10) cs
  rwa [Option.mem_def.1 hc] at hnot

/-- A text is a digit string and what follows it in one way only. -/
theorem digits_unique {ds' : List Char} (hds : ∀ c ∈ ds, isDigit 10 c)
    (hrest : ∀ c ∈ rest.head?, isDigit 10 c = false) (hds' : ∀ c ∈ ds', isDigit 10 c)
    (hrest' : ∀ c ∈ rest'.head?, isDigit 10 c = false) (h : ds ++ rest = ds' ++ rest') :
    ds = ds' ∧ rest = rest' := by
  have hgives := gives_takeWhile (p := 0) hds hrest
  rw [h] at hgives
  have hequal := (hgives.unique (gives_takeWhile hds' hrest')).1
  exact ⟨hequal, List.append_cancel_left (hequal ▸ h)⟩

end

/-! ## Reading -/

section

variable {p : Nat} {rest : List Char} {min : Nat} {max : Option Nat}

theorem gives_intervalEnd (h : ¬max.any (· < min)) :
    (intervalEnd min max).Gives ⟨p, '\x7d' :: rest⟩
      (some (.quantifier (quantifierBefore rest (min, max))))
      (Cursor.afterSuffix ⟨p + 1, rest⟩ (quantifierBefore rest (min, max))) := by
  refine gives_bind.2 ⟨true, _, gives_eat _ _ _, ?_⟩
  rw [if_neg (by simpa using h)]
  by_cases hmax : max = some min
  · rw [if_neg (by simp [hmax])]
    simp [quantifierBefore, hmax, Cursor.afterSuffix, Gives, pure, done]
  · rw [if_pos (by simp [hmax])]
    by_cases hmark : rest.head? = some '?'
    · obtain ⟨xs, rfl⟩ := List.head?_eq_some_iff.1 hmark
      refine gives_bind.2 ⟨true, _, gives_eat _ _ _, ?_⟩
      simp [quantifierBefore, hmax, Cursor.afterSuffix, Cursor.advance, Gives, pure, done]
    · refine gives_bind.2 ⟨false, _, gives_not_eat hmark, ?_⟩
      simp [quantifierBefore, hmax, hmark, Cursor.afterSuffix, Gives, pure, done]

/-- Bounds that go downwards, or that no brace follows, make no interval. -/
theorem gives_intervalEnd_none (h : rest.head? ≠ some '\x7d' ∨ max.any (· < min)) :
    ∃ d, (intervalEnd min max).Gives ⟨p, rest⟩ none d := by
  by_cases hbrace : rest.head? = some '\x7d'
  · obtain ⟨xs, rfl⟩ := List.head?_eq_some_iff.1 hbrace
    have hdown : max.any (· < min) := by simpa using h
    refine ⟨⟨p + 1, xs⟩, gives_bind.2 ⟨true, _, gives_eat _ _ _, ?_⟩⟩
    rw [if_pos (by simpa using hdown)]
    exact ⟨rfl, rfl⟩
  · exact ⟨_, gives_bind.2 ⟨false, _, gives_not_eat hbrace, rfl, rfl⟩⟩

theorem gives_orBack_some {α : Type} {r : Reader (Option α)} {a : α} (h : r.Gives c (some a) d) :
    (orBack r).Gives c (some a) d :=
  gives_orBack.2 (.inl ⟨rfl, h⟩)

theorem gives_orBack_none {α : Type} {r : Reader (Option α)} (h : ∃ d, r.Gives c none d) :
    (orBack r).Gives c none c :=
  gives_orBack.2 (.inr ⟨rfl, rfl, h⟩)

end

/-! ## Intervals and other texts -/

/-- Reads an interval; of what is none, a part may have been taken. -/
def intervalBody : Reader (Option Token) := do
  let low ← count
  if ← eat ',' then
    let high ← count
    if low.isNone && high.isNone then return none
    intervalEnd (low.getD 0) high
  else
    match low with
    | some n => intervalEnd n (some n)
    | none => return none

section

variable {p : Nat} {low high tail rest : List Char}

theorem Interval.text_single : (Interval.mk low none).text ++ rest = low ++ '\x7d' :: rest := by
  simp [text]

theorem Interval.text_pair :
    (Interval.mk low (some high)).text ++ rest = low ++ ',' :: (high ++ '\x7d' :: rest) := by
  simp [text]

theorem notDigit_cons (hx : isDigit 10 x = false) :
    ∀ c ∈ (x :: rest).head?, isDigit 10 c = false := by
  rintro _ ⟨⟩
  exact hx

/-- Without a comma, there is one bound. -/
theorem gives_single (hlow : ∀ c ∈ low, isDigit 10 c)
    (htail : ∀ c ∈ tail.head?, isDigit 10 c = false) (hcomma : tail.head? ≠ some ',')
    (h : ((Interval.bound? low).elim (pure none) fun n => intervalEnd n (some n)).Gives ⟨p + low.length, tail⟩ o d) :
    intervalBody.Gives ⟨p, low ++ tail⟩ o d := by
  refine gives_bind.2 ⟨_, _, gives_count hlow htail, ?_⟩
  refine gives_bind.2 ⟨false, _, gives_not_eat hcomma, ?_⟩
  cases hn : Interval.bound? low <;> rwa [hn] at h

/-- With a comma, there are two. -/
theorem gives_pair (hlow : ∀ c ∈ low, isDigit 10 c) (hhigh : ∀ c ∈ high, isDigit 10 c)
    (htail : ∀ c ∈ tail.head?, isDigit 10 c = false)
    (h : (if (Interval.bound? low).isNone && (Interval.bound? high).isNone then pure none else intervalEnd ((Interval.bound? low).getD 0) (Interval.bound? high)).Gives ⟨p + low.length + 1 + high.length, tail⟩ o d)
    :
    intervalBody.Gives ⟨p, low ++ ',' :: (high ++ tail)⟩ o d := by
  refine gives_bind.2 ⟨_, _, gives_count hlow (notDigit_cons (by decide)), ?_⟩
  refine gives_bind.2 ⟨true, _, gives_eat _ _ _, ?_⟩
  exact gives_bind.2 ⟨_, _, gives_count hhigh htail, h⟩

theorem gives_single_none (hlow : ∀ c ∈ low, isDigit 10 c)
    (htail : ∀ c ∈ tail.head?, isDigit 10 c = false) (hcomma : tail.head? ≠ some ',')
    (h : Interval.bound? low = none ∨ tail.head? ≠ some '\x7d') :
    ∃ d, intervalBody.Gives ⟨p, low ++ tail⟩ none d := by
  cases hn : Interval.bound? low with
  | none =>
    refine ⟨⟨p + low.length, tail⟩, gives_single hlow htail hcomma ?_⟩
    rw [hn]
    exact ⟨rfl, rfl⟩
  | some n =>
    have hbrace := h.resolve_left (by simp [hn])
    obtain ⟨d, hd⟩ : ∃ d, (intervalEnd n (some n)).Gives ⟨p + low.length, tail⟩ none d :=
      gives_intervalEnd_none (.inl hbrace)
    refine ⟨d, gives_single hlow htail hcomma ?_⟩
    rwa [hn]

theorem gives_pair_none (hlow : ∀ c ∈ low, isDigit 10 c) (hhigh : ∀ c ∈ high, isDigit 10 c)
    (htail : ∀ c ∈ tail.head?, isDigit 10 c = false)
    (h : tail.head? ≠ some '\x7d' ∨ (Interval.mk low (some high)).bounds? = none) :
    ∃ d, intervalBody.Gives ⟨p, low ++ ',' :: (high ++ tail)⟩ none d := by
  by_cases hbound : (Interval.bound? low).isNone && (Interval.bound? high).isNone
  · refine ⟨⟨p + low.length + 1 + high.length, tail⟩, gives_pair hlow hhigh htail ?_⟩
    rw [if_pos hbound]
    exact ⟨rfl, rfl⟩
  · have hdown : tail.head? ≠ some '\x7d' ∨
        (Interval.bound? high).any (· < (Interval.bound? low).getD 0) := by
      refine h.imp_right fun hb => ?_
      simp only [Interval.bounds?, ite_eq_left_iff, reduceCtorEq, imp_false, not_not] at hb
      exact hb.resolve_left (by simpa using hbound)
    obtain ⟨d, hd⟩ := gives_intervalEnd_none (p := p + low.length + 1 + high.length) hdown
    refine ⟨d, gives_pair hlow hhigh htail ?_⟩
    rwa [if_neg hbound]

end

variable {i : Interval}

/-- An interval is read by its bounds. -/
theorem gives_interval (hi : i.HasDigits) (hb : i.bounds? = some b) (p : Nat) (rest : List Char) :
    interval.Gives ⟨p, i.text ++ rest⟩ (some (.quantifier (quantifierBefore rest b)))
      (Cursor.afterSuffix ⟨p + i.text.length, rest⟩ (quantifierBefore rest b)) := by
  obtain ⟨low, _ | high⟩ := i <;> obtain ⟨hlow, hhigh⟩ := hi <;> dsimp only at hlow hhigh
  · obtain ⟨n, hn, rfl⟩ := Option.map_eq_some_iff.1 hb
    have hlength : p + (Interval.text ⟨low, none⟩).length = p + low.length + 1 := by
      simp [Interval.text, Nat.add_assoc]
    rw [hlength, Interval.text_single]
    refine gives_orBack_some (gives_single hlow (notDigit_cons (by decide)) (by simp) ?_)
    rw [show Interval.bound? low = some n from hn]
    exact gives_intervalEnd (by simp)
  · simp only [Interval.bounds?, Option.ite_none_left_eq_some, not_or] at hb
    obtain ⟨⟨hbound, hordered⟩, hb⟩ := hb
    obtain rfl := Option.some.inj hb
    have hlength : p + (Interval.text ⟨low, some high⟩).length
        = p + low.length + 1 + high.length + 1 := by
      simp [Interval.text]
      omega
    rw [hlength, Interval.text_pair]
    refine gives_orBack_some (gives_pair hlow (hhigh high rfl) (notDigit_cons (by decide)) ?_)
    rw [if_neg (by simpa using hbound)]
    exact gives_intervalEnd hordered

/-- An interval without bounds, or whose bounds go downwards, is not read. -/
theorem gives_interval_none (hi : i.HasDigits) (hb : i.bounds? = none) (p : Nat) (rest : List Char) :
    interval.Gives ⟨p, i.text ++ rest⟩ none ⟨p, i.text ++ rest⟩ := by
  refine gives_orBack_none ?_
  obtain ⟨low, _ | high⟩ := i <;> obtain ⟨hlow, hhigh⟩ := hi <;> dsimp only at hlow hhigh
  · rw [Interval.text_single]
    exact gives_single_none hlow (notDigit_cons (by decide)) (by simp)
      (.inl (Option.map_eq_none_iff.1 hb))
  · rw [Interval.text_pair]
    exact gives_pair_none hlow (hhigh high rfl) (notDigit_cons (by decide)) (.inr hb)

/-- What is no interval is not read. -/
theorem gives_interval_other (h : ∀ i rest, i.HasDigits → cs ≠ Interval.text i ++ rest) (p : Nat) :
    interval.Gives ⟨p, cs⟩ none ⟨p, cs⟩ := by
  refine gives_orBack_none ?_
  obtain ⟨low, tail, rfl, hlow, htail⟩ := exists_digits cs
  by_cases hcomma : tail.head? = some ','
  · obtain ⟨behind, rfl⟩ := List.head?_eq_some_iff.1 hcomma
    obtain ⟨high, tail, rfl, hhigh, htail⟩ := exists_digits behind
    refine gives_pair_none hlow hhigh htail (.inl fun hbrace => ?_)
    obtain ⟨rest, rfl⟩ := List.head?_eq_some_iff.1 hbrace
    exact h ⟨low, some high⟩ rest ⟨hlow, by simpa using hhigh⟩ Interval.text_pair.symm
  · refine gives_single_none hlow htail hcomma (.inr fun hbrace => ?_)
    obtain ⟨rest, rfl⟩ := List.head?_eq_some_iff.1 hbrace
    exact h ⟨low, none⟩ rest ⟨hlow, by simp⟩ Interval.text_single.symm

/-- At most one interval begins a text. -/
theorem Interval.text_unique {j : Interval} {rest : List Char} (hi : i.HasDigits) (hj : j.HasDigits)
    (h : i.text ++ rest = j.text ++ rest') : i = j ∧ rest = rest' := by
  have hcomma : ∀ {xs : List Char}, ∀ c ∈ (',' :: xs).head?, isDigit 10 c = false :=
    notDigit_cons (by decide)
  have hbrace : ∀ {xs : List Char}, ∀ c ∈ ('\x7d' :: xs).head?, isDigit 10 c = false :=
    notDigit_cons (by decide)
  obtain ⟨low, _ | high⟩ := i <;> obtain ⟨low', _ | high'⟩ := j
  · rw [text_single, text_single] at h
    obtain ⟨rfl, htail⟩ := digits_unique hi.1 hbrace hj.1 hbrace h
    exact ⟨rfl, (List.cons.inj htail).2⟩
  · rw [text_single, text_pair] at h
    obtain ⟨-, htail⟩ := digits_unique hi.1 hbrace hj.1 hcomma h
    exact absurd (List.cons.inj htail).1 (by decide)
  · rw [text_pair, text_single] at h
    obtain ⟨-, htail⟩ := digits_unique hi.1 hcomma hj.1 hbrace h
    exact absurd (List.cons.inj htail).1 (by decide)
  · rw [text_pair, text_pair] at h
    obtain ⟨rfl, htail⟩ := digits_unique hi.1 hcomma hj.1 hcomma h
    obtain ⟨rfl, hbehind⟩ := digits_unique (hi.2 _ rfl) hbrace (hj.2 _ rfl) hbrace
      (List.cons.inj htail).2
    exact ⟨rfl, (List.cons.inj hbehind).2⟩

/-! ## Bounds -/

namespace Interval

variable {i : Interval} {ds : List Char}

/-- A digit string that is a 32-bit number gives that number. -/
theorem bound?_of_lt (hds : ∀ c ∈ ds, isDigit 10 c) (hne : ds ≠ []) (h : ofDigits 10 ds < 2 ^ 32) :
    bound? ds = some (ofDigits 10 ds) :=
  number?_eq_some.2 ⟨hne, hds, rfl, h⟩

theorem bound?_low (hi : i.HasDigits) (hfits : i.Fits) :
    bound? i.low = if i.low = [] then none else some i.min := by
  split
  next hlow =>
    rw [hlow]
    rfl
  next hlow => exact bound?_of_lt hi.1 hlow hfits.1

theorem max_of_high (hds : i.high = some ds) :
    i.max = if ds = [] then none else some (ofDigits 10 ds) := by
  cases ds <;> simp [max, hds]

theorem bound?_high (hi : i.HasDigits) (hfits : i.Fits) (hds : i.high = some ds) :
    bound? ds = i.max := by
  rw [max_of_high hds]
  split
  next hne =>
    rw [hne]
    rfl
  next hne =>
    have hmax : i.max = some (ofDigits 10 ds) := by rw [max_of_high hds, if_neg hne]
    exact bound?_of_lt (hi.2 ds hds) hne (hfits.2 _ hmax)

/-- Bounds that fit are read as they are, if there are any and they go upwards. -/
theorem bounds?_eq_some_iff (hi : i.HasDigits) (hfits : i.Fits) :
    i.bounds? = some b ↔ i.IsWritten ∧ i.IsOrdered ∧ (i.min, i.max) = b := by
  cases hhigh : i.high with
  | none =>
    have hmax : i.max = some i.min := by simp [max, hhigh]
    have hread : i.bounds? = if i.low = [] then none else some (i.min, i.max) := by
      simp only [bounds?, hhigh, bound?_low hi hfits, hmax]
      split <;> rfl
    have hwritten : i.IsWritten ↔ i.low ≠ [] := by simp [IsWritten, hi, hhigh]
    have hordered : i.IsOrdered := by simp [IsOrdered, hmax]
    rw [hread, hwritten, Option.ite_none_left_eq_some, Option.some.injEq]
    exact and_congr_right fun _ => (and_iff_right hordered).symm
  | some ds =>
    have hlow : bound? i.low = none ↔ i.low = [] := by simp [bound?_low hi hfits]
    have hmin : (bound? i.low).getD 0 = i.min := by
      rw [bound?_low hi hfits]
      split
      next hlow =>
        rw [min, hlow]
        rfl
      · rfl
    have hmax : i.max = none ↔ ds = [] := by simp [max_of_high hhigh]
    have hwritten : i.IsWritten ↔ ¬(i.low = [] ∧ i.max = none) := by
      rw [not_and_or]
      simp [IsWritten, hi, hhigh, hmax]
    have hordered : i.IsOrdered ↔ ¬i.max.any (· < i.min) := by
      simp [IsOrdered, Option.any_eq_true]
    simp only [bounds?, hhigh, bound?_high hi hfits hhigh, hmin, hlow]
    rw [Option.ite_none_left_eq_some, Option.some.injEq, hwritten, hordered, not_or, and_assoc]

/-- An interval without any digits fits. -/
theorem fits_of_not_isWritten (hi : i.HasDigits) (h : ¬i.IsWritten) : i.Fits := by
  have hlow : i.low = [] := by
    by_contra hlow
    exact h ⟨hi, .inl hlow⟩
  have hmin : i.min = 0 := by simp [min, hlow, ofDigits]
  refine ⟨by simp [hmin], fun m hm => ?_⟩
  cases hhigh : i.high with
  | none =>
    simp only [max, hhigh, hmin, Option.mem_def, Option.some.injEq] at hm
    simp [← hm]
  | some ds =>
    have hds : ds = [] := by
      by_contra hds
      exact h ⟨hi, .inr ⟨ds, hhigh, hds⟩⟩
    simp [max_of_high hhigh, hds] at hm

end Interval

/-! ## Words that begin with a brace -/

theorem gives_nextToken_brace {p : Nat} (h : interval.Gives ⟨p + 1, cs⟩ o d) :
    (nextToken false).Gives ⟨p, '\x7b' :: cs⟩ (some (o.getD (.literal '\x7b'))) d := by
  have hgap : (skipGap false).Gives ⟨p, '\x7b' :: cs⟩ () ⟨p, '\x7b' :: cs⟩ := by
    simp [Gives, skipGap, gapLength, Cursor.advance]
  refine gives_bind.2 ⟨(), _, hgap, gives_nextWord_cons.2 ⟨_, rfl, ?_⟩⟩
  exact gives_bind.2 ⟨o, d, h, rfl, rfl⟩

/-- **A brace begins an interval or stands for itself.** Outside bracketed classes and without free
spacing, if an interval with bounds that go upwards follows a brace, the word is a quantifier with
these bounds, and in every other case it is the brace alone. A bound that is written is supposed to
be a 32-bit number. -/
theorem interval_exact (p : Nat) (cs : List Char)
    (hfits : ∀ i rest, i.IsWritten → cs = Interval.text i ++ rest → i.Fits) :
    (∃ i rest, i.IsWritten ∧ i.IsOrdered ∧ cs = Interval.text i ++ rest ∧
      (nextToken false).Gives ⟨p, '\x7b' :: cs⟩
        (some (.quantifier (quantifierBefore rest (i.min, i.max))))
        (Cursor.afterSuffix ⟨p + 1 + i.text.length, rest⟩
          (quantifierBefore rest (i.min, i.max)))) ∨
    ((∀ i rest, i.IsWritten → i.IsOrdered → cs ≠ Interval.text i ++ rest) ∧
      (nextToken false).Gives ⟨p, '\x7b' :: cs⟩ (some (.literal '\x7b')) ⟨p + 1, cs⟩) := by
  by_cases hsome : ∃ i rest, i.HasDigits ∧ cs = Interval.text i ++ rest
  · obtain ⟨i, rest, hi, rfl⟩ := hsome
    have hfit : i.Fits := by
      by_cases hwritten : i.IsWritten
      · exact hfits i rest hwritten rfl
      · exact Interval.fits_of_not_isWritten hi hwritten
    have hread := fun b => Interval.bounds?_eq_some_iff hi hfit (b := b)
    cases hb : i.bounds? with
    | some b =>
      obtain ⟨hwritten, hordered, rfl⟩ := (hread b).1 hb
      exact .inl ⟨i, rest, hwritten, hordered, rfl,
        gives_nextToken_brace (gives_interval hi hb (p + 1) rest)⟩
    | none =>
      refine .inr ⟨fun j rest' hj hordered h => ?_,
        gives_nextToken_brace (gives_interval_none hi hb (p + 1) rest)⟩
      obtain ⟨rfl, rfl⟩ := Interval.text_unique hi hj.1 h
      cases hb.symm.trans ((hread _).2 ⟨hj, hordered, rfl⟩)
  · have hno : ∀ i rest, i.HasDigits → cs ≠ Interval.text i ++ rest :=
      fun i rest hi h => hsome ⟨i, rest, hi, h⟩
    exact .inr ⟨fun i rest hi _ => hno i rest hi.1,
      gives_nextToken_brace (gives_interval_other hno (p + 1))⟩

theorem isWritten_of_all {low high : List Char} (hlow : low.all (isDigit 10))
    (hhigh : high.all (isDigit 10)) (hne : low ≠ []) : (Interval.mk low (some high)).IsWritten := by
  refine ⟨⟨List.all_eq_true.1 hlow, ?_⟩, .inl hne⟩
  rintro _ ⟨⟩
  exact List.all_eq_true.1 hhigh

theorem interval_exact_lazy :
    (nextToken false).Gives ⟨1, "\x7b2,5\x7d?".toList⟩ (some (.quantifier ⟨2, some 5, .lazy⟩))
      ⟨7, []⟩ := by
  let i : Interval := ⟨['2'], some ['5']⟩
  have hi : i.IsWritten := isWritten_of_all (by decide) (by decide) (by decide)
  have hfits : ∀ j rest, j.IsWritten → "2,5\x7d?".toList = Interval.text j ++ rest → j.Fits := by
    intro j rest hj h
    obtain ⟨rfl, -⟩ := Interval.text_unique hi.1 hj.1 (show i.text ++ ['?'] = _ from h)
    exact ⟨by decide, by decide⟩
  rcases interval_exact 1 "2,5\x7d?".toList hfits with ⟨j, rest, hj, -, h, hgives⟩ | ⟨hno, -⟩
  · obtain ⟨rfl, rfl⟩ := Interval.text_unique hi.1 hj.1 (show i.text ++ ['?'] = _ from h)
    exact hgives
  · exact absurd rfl (hno i ['?'] hi (show ∀ m ∈ i.max, i.min ≤ m by decide))

/-- **A great bound is lost.** The lower bound that is written here is no 32-bit number and greater
than the upper one, but the two are read as a quantifier, and its lower bound is 0. -/
theorem large_bound_dropped :
    (Interval.mk "99999999999".toList (some ['5'])).IsWritten ∧
      ¬(Interval.mk "99999999999".toList (some ['5'])).IsOrdered ∧
      (nextToken false).Gives ⟨0, "\x7b99999999999,5\x7d".toList⟩
        (some (.quantifier ⟨0, some 5, .greedy⟩)) ⟨15, []⟩ := by
  refine ⟨isWritten_of_all (by decide) (by decide) (by decide), fun h => ?_, by decide, by decide⟩
  exact absurd (h 5 rfl) (by decide)

end Diglot.Source
