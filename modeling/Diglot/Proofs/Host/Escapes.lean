import Diglot.Host.Token.Lexer
import Mathlib.Data.Bool.AllAny
import Mathlib.Data.List.TakeDrop

/-!
# How escapes are written

The readers of escapes are given the whole text ahead. What they take of it has one of a few forms,
and beyond that they look only at the next character and at the escape of a trailing surrogate. So
an escape reads the same before every text that begins in the same way (`CodeForm.follow`).
-/

namespace Diglot.Host

open Text

variable {c d z : Char} {radix n k : Nat} {ds rest cs w rest' v name : List Char} {g : Grammar}
  {inClass : Bool} {s : CharSet} {x : Dialect} {before : Unicode.CodeText}
  {texts : List Unicode.CodeText}

/-! ## Texts that begin alike -/

/-- Two texts begin alike, as far as a token before them can tell. -/
structure SameStart (cs ds : List Char) : Prop where
  head : cs.head? = ds.head?
  pair : ∀ lead, surrogatePair? lead cs = surrogatePair? lead ds

theorem SameStart.refl (cs : List Char) : SameStart cs cs :=
  ⟨rfl, fun _ => rfl⟩

/-- Only a backslash begins the escape of a surrogate. -/
theorem surrogatePair?_cons (h : c ≠ '\\') (lead : Nat) (cs : List Char) :
    surrogatePair? lead (c :: cs) = none := by
  rw [surrogatePair?]
  intro ds heq
  exact h (List.cons.inj heq).1

theorem surrogatePair?_escape (h : c ≠ 'u') (lead : Nat) (cs : List Char) :
    surrogatePair? lead ('\\' :: c :: cs) = none := by
  rw [surrogatePair?]
  intro ds heq
  exact h (List.cons.inj (List.cons.inj heq).2).1

theorem sameStart_cons (h : c ≠ '\\') (cs ds : List Char) : SameStart (c :: cs) (c :: ds) :=
  ⟨rfl, fun lead => by rw [surrogatePair?_cons h, surrogatePair?_cons h]⟩

theorem sameStart_escape (hc : c ≠ 'u') (hd : d ≠ 'u') (cs ds : List Char) :
    SameStart ('\\' :: c :: cs) ('\\' :: d :: ds) :=
  ⟨rfl, fun lead => by rw [surrogatePair?_escape hc, surrogatePair?_escape hd]⟩

/-! ## Digits -/

theorem digits_of_number? {bound : Nat} (h : number? radix bound ds = some n) :
    ds ≠ [] ∧ ∀ c ∈ ds, isDigit radix c := by
  unfold number? at h
  split at h
  · cases h
  next hds =>
    simp only [Bool.or_eq_true, List.isEmpty_iff, Bool.not_eq_true', not_or, Bool.not_eq_false,
      List.all_eq_true] at hds
    exact hds

/-- A digit is none of the characters that are no digits. -/
theorem ne_of_isDigit (h : isDigit radix c) (hd : isDigit radix d = false) : c ≠ d := by
  rintro rfl
  rw [h] at hd
  cases hd

/-- The characters of a kind at the front of a text end where something else comes. -/
theorem span_append {p : Char → Bool} {front : List Char} (hf : ∀ c ∈ front, p c)
    (hr : rest.head?.any p = false) : (front ++ rest).span p = (front, rest) := by
  have hnone : rest.takeWhile p = [] ∧ rest.dropWhile p = rest := by
    cases rest with
    | nil => exact ⟨rfl, rfl⟩
    | cons c cs =>
      have hc : ¬ p c = true := by simpa using hr
      exact ⟨List.takeWhile_cons_of_neg hc, List.dropWhile_cons_of_neg hc⟩
  rw [List.span_eq_takeWhile_dropWhile, List.takeWhile_append_of_pos hf,
    List.dropWhile_append_of_pos hf, hnone.1, hnone.2, List.append_nil]

theorem of_span {p : Char → Bool} {front : List Char} (h : cs.span p = (front, rest)) :
    cs = front ++ rest ∧ (∀ c ∈ front, p c) ∧ rest.head?.any p = false := by
  rw [List.span_eq_takeWhile_dropWhile] at h
  obtain ⟨rfl, rfl⟩ := Prod.mk.inj h
  refine ⟨List.takeWhile_append_dropWhile.symm, List.all_eq_true.1 List.all_takeWhile, ?_⟩
  have hhead := List.head?_dropWhile_not p cs
  cases hc : (cs.dropWhile p).head? <;> simp_all

/-- A text ends with the first character of a kind. -/
theorem span_closed {text : List Char} (h : z ∉ text) (rest : List Char) :
    (text ++ z :: rest).span (· != z) = (text, z :: rest) := by
  refine span_append (fun c hc => ?_) (by simp)
  rw [bne_iff_ne]
  rintro rfl
  exact h hc

theorem leadingHex?_append (h : ds.length = n) (rest : List Char) :
    leadingHex? n (ds ++ rest) = number? 16 (Nat.pow 16 n) ds := by
  rw [leadingHex?, if_pos (by simp [h]), List.take_append_of_le_length (Nat.le_of_eq h.symm),
    List.take_of_length_le (Nat.le_of_eq h)]

theorem exists_of_leadingHex? {v : Nat} (h : leadingHex? n cs = some v) :
    ∃ ds rest, cs = ds ++ rest ∧ ds.length = n ∧ number? 16 (Nat.pow 16 n) ds = some v := by
  unfold leadingHex? at h
  split at h
  next hlength => exact ⟨_, _, (List.take_append_drop n cs).symm, List.length_take_of_le hlength, h⟩
  next => cases h

/-! ## Code points after `\u` -/

/-- How the characters `w` after `\u` write the code point `n`, when `rest` comes after them. -/
inductive UnicodeForm : (w rest : List Char) → (n : Nat) → Prop where
  | braced {ds rest : List Char} {n : Nat} (h : number? 16 0x110000 ds = some n) :
    UnicodeForm ('\x7b' :: (ds ++ ['\x7d'])) rest n
  | unit {ds rest : List Char} {n : Nat} (hl : ds.length = 4)
    (h : number? 16 (Nat.pow 16 4) ds = some n) (hp : surrogatePair? n rest = none) :
    UnicodeForm ds rest n
  | pair {ds es rest : List Char} {n m : Nat} (hl : ds.length = 4)
    (h : number? 16 (Nat.pow 16 4) ds = some n) (hl' : es.length = 4)
    (hes : ∀ c ∈ es, isDigit 16 c) (hp : surrogatePair? n ('\\' :: 'u' :: es) = some m) :
    UnicodeForm (ds ++ '\\' :: 'u' :: es) rest m

theorem surrogatePair?_append {es : List Char} (h : es.length = 4) (lead : Nat) (rest : List Char) :
    surrogatePair? lead ('\\' :: 'u' :: (es ++ rest)) = surrogatePair? lead ('\\' :: 'u' :: es) := by
  have hes := leadingHex?_append h []
  rw [List.append_nil] at hes
  rw [surrogatePair?, surrogatePair?, leadingHex?_append h, hes]

theorem exists_of_surrogatePair? {lead m : Nat} (h : surrogatePair? lead cs = some m) :
    ∃ es rest, cs = '\\' :: 'u' :: (es ++ rest) ∧
      es.length = 4 ∧ ∀ c ∈ es, isDigit 16 c := by
  unfold surrogatePair? at h
  split at h
  next ds =>
    obtain ⟨trail, htrail, -⟩ := Option.bind_eq_some_iff.1 h
    obtain ⟨es, rest, rfl, hl, hn⟩ := exists_of_leadingHex? htrail
    exact ⟨es, rest, rfl, hl, (digits_of_number? hn).2⟩
  next => cases h

/-- Four digits are no brace. -/
theorem unicodeEscape?_digits (hl : ds.length = 4) (h : number? 16 (Nat.pow 16 4) ds = some n) :
    unicodeEscape? g (ds ++ rest) = some ((surrogatePair? n rest).elim (n, 4) (·, 10)) := by
  obtain ⟨hne, hds⟩ := digits_of_number? h
  have hbrace : ∀ cs, ds ++ rest = '\x7b' :: cs → False := by
    intro cs heq
    obtain ⟨d, ds', rfl⟩ := List.exists_cons_of_ne_nil hne
    have hd : isDigit 16 d := hds d List.mem_cons_self
    exact ne_of_isDigit hd (by decide) (List.cons.inj heq).1
  rw [unicodeEscape?, leadingHex?_append hl, h, List.drop_left' hl]
  · cases hp : surrogatePair? n rest <;> simp [hp]
  · exact hbrace

theorem UnicodeForm.unicodeEscape?_eq (hg : g.isStrict) (h : UnicodeForm w rest n) :
    unicodeEscape? g (w ++ rest) = some (n, w.length) := by
  cases h with
  | @braced ds _ _ h =>
    have hspan : (ds ++ '\x7d' :: rest).span (isDigit 16) = (ds, '\x7d' :: rest) :=
      span_append (digits_of_number? h).2 rfl
    rw [List.cons_append, List.append_assoc, List.singleton_append, unicodeEscape?, if_pos hg, hspan]
    show (number? 16 0x110000 ds).bind _ = _
    rw [h]
    simp
  | unit hl h hp => rw [unicodeEscape?_digits hl h, hp, hl]; rfl
  | @pair ds es _ _ _ hl h hl' hes hp =>
    rw [List.append_assoc, unicodeEscape?_digits hl h, List.cons_append, List.cons_append,
      surrogatePair?_append hl', hp]
    simp [hl, hl']

/-- **What is read after `\u` has one of the forms.** -/
theorem exists_unicodeForm (h : unicodeEscape? g cs = some (n, k)) :
    ∃ w rest, cs = w ++ rest ∧ w.length = k ∧ UnicodeForm w rest n := by
  unfold unicodeEscape? at h
  split at h
  next cs =>
    split at h
    next hg =>
      split at h
      next digits tail hspan =>
        obtain ⟨v, hv, h⟩ := Option.bind_eq_some_iff.1 h
        cases h
        exact ⟨'\x7b' :: (digits ++ ['\x7d']), tail, by simp [(of_span hspan).1], by simp, .braced hv⟩
      next => cases h
    next => cases h
  next =>
    obtain ⟨v, hv, h⟩ := Option.bind_eq_some_iff.1 h
    obtain ⟨ds, rest, rfl, hl, hn⟩ := exists_of_leadingHex? hv
    rw [List.drop_left' hl] at h
    split at h
    next pair hp =>
      cases h
      obtain ⟨es, tail, rfl, hl', hes⟩ := exists_of_surrogatePair? hp
      rw [surrogatePair?_append hl'] at hp
      exact ⟨ds ++ '\\' :: 'u' :: es, tail, by simp, by simp [hl, hl'], .pair hl hn hl' hes hp⟩
    next hp =>
      cases h
      exact ⟨ds, rest, rfl, hl, .unit hl hn hp⟩

theorem UnicodeForm.follow (h : UnicodeForm w rest n) (hs : SameStart rest rest') :
    UnicodeForm w rest' n := by
  cases h with
  | braced h => exact .braced h
  | unit hl h hp => exact .unit hl h ((hs.pair _).symm.trans hp)
  | pair hl h hl' hes hp => exact .pair hl h hl' hes hp

/-! ## Code points -/

/-- The letters that stand for control characters when they are escaped. -/
def controlLetters : List (Char × Nat) :=
  [('t', 0x09), ('n', 0x0A), ('v', 0x0B), ('f', 0x0C), ('r', 0x0D)]

/-- The characters that some strict grammar lets stand for themselves when they are escaped. -/
def escapables : List Char :=
  "^$\\.*+?()[]\x7b\x7d|/&-!#%,:;<=>@\x60~".toList

/-- Whether a character stands for itself in a strict grammar when it is escaped. -/
def isEscapable (g : Grammar) (inClass : Bool) (c : Char) : Bool :=
  isSyntaxChar c || c = '/' || (inClass && if g = .sets then isReservedPunctuator c else c = '-')

/-- How the characters `w` of an escape write the code point `n` in a strict grammar, when `rest`
comes after them. -/
inductive CodeForm (g : Grammar) (inClass : Bool) : (w rest : List Char) → (n : Nat) → Prop where
  | letter {c : Char} {rest : List Char} {n : Nat} (h : (c, n) ∈ controlLetters) :
    CodeForm g inClass [c] rest n
  | control {c : Char} {rest : List Char} (h : c.isAlpha) :
    CodeForm g inClass ['c', c] rest (c.toNat % 32)
  | hex {ds rest : List Char} {n : Nat} (hl : ds.length = 2)
    (h : number? 16 (Nat.pow 16 2) ds = some n) : CodeForm g inClass ('x' :: ds) rest n
  | unicode {w rest : List Char} {n : Nat} (h : UnicodeForm w rest n) :
    CodeForm g inClass ('u' :: w) rest n
  | backspace {rest : List Char} (h : inClass) : CodeForm g inClass ['b'] rest 0x08
  | zero {rest : List Char} (h : rest.head?.any (isDigit 10) = false) :
    CodeForm g inClass ['0'] rest 0
  | itself {c : Char} {rest : List Char} (h : isEscapable g inClass c) :
    CodeForm g inClass [c] rest c.toNat

theorem mem_escapables (h : isEscapable g inClass c) : c ∈ escapables := by
  have hsyntax : ∀ c ∈ "^$\\.*+?()[]\x7b\x7d|".toList, c ∈ escapables :=
    List.all_iff_forall_prop.1 (by decide)
  have hreserved : ∀ c ∈ "&-!#%,:;<=>@\x60~".toList, c ∈ escapables :=
    List.all_iff_forall_prop.1 (by decide)
  simp only [isEscapable, Bool.or_eq_true, Bool.and_eq_true, decide_eq_true_eq] at h
  rcases h with (h | rfl) | ⟨-, h⟩
  · exact hsyntax c (List.contains_iff_mem.1 h)
  · decide
  · split at h
    · exact hreserved c (List.contains_iff_mem.1 h)
    · simp only [decide_eq_true_eq] at h
      subst h
      decide

theorem identityEscape?_eq (hx : x.isStrict) (inClass : Bool) (c : Char) :
    identityEscape? x inClass c = if isEscapable x.grammar inClass c then some c.toNat else none := by
  unfold Dialect.isStrict at hx
  unfold identityEscape? isEscapable
  cases hg : x.grammar with
  | loose => rw [hg] at hx; cases hx
  | unicode | sets => rfl

theorem codeEscape?_escapable (h : c ∈ escapables) (inClass : Bool) (cs : List Char) :
    codeEscape? x inClass (c :: cs) = (identityEscape? x inClass c).map (·, 1) := by
  have hplain : ∀ c ∈ escapables, c ≠ 'b' ∧ isDigit 10 c = false :=
    List.all_iff_forall_prop.1 (by decide)
  obtain ⟨hb, hd⟩ := hplain c h
  unfold codeEscape?
  dsimp only
  split
  iterate 8 exact absurd h (by decide)
  rw [if_neg (by simp [hb]), if_neg (by simp [hd])]

theorem CodeForm.codeEscape?_eq (hx : x.isStrict) (h : CodeForm x.grammar inClass w rest n) :
    codeEscape? x inClass (w ++ rest) = some (n, w.length) := by
  cases h with
  | letter h =>
    simp only [controlLetters, List.mem_cons, Prod.mk.injEq, List.not_mem_nil, or_false] at h
    rcases h with ⟨rfl, rfl⟩ | ⟨rfl, rfl⟩ | ⟨rfl, rfl⟩ | ⟨rfl, rfl⟩ | ⟨rfl, rfl⟩ <;> rfl
  | @control c _ h =>
    show (if isControlLetter x inClass c then some (c.toNat % 32, 2) else none) = _
    rw [if_pos (by simp [isControlLetter, h])]
    rfl
  | @hex ds _ _ hl h =>
    simp only [List.cons_append, codeEscape?, leadingHex?_append hl, h, List.length_cons, hl]
  | @unicode w _ _ h =>
    simp only [List.cons_append, codeEscape?, h.unicodeEscape?_eq hx, List.length_cons]
  | backspace h =>
    subst h
    rfl
  | zero h =>
    show (if inClass && '0' = 'b' then _ else if isDigit 10 '0' then digitEscape? x inClass '0' rest
      else _) = _
    rw [if_neg (by simp), if_pos (by decide), digitEscape?, if_pos hx, if_pos (by simp [h])]
    rfl
  | @itself c _ h =>
    rw [List.singleton_append, codeEscape?_escapable (mem_escapables h), identityEscape?_eq hx,
      if_pos h]
    rfl

/-- **What is read as a code point has one of the forms.** -/
theorem exists_codeForm (hx : x.isStrict) (h : codeEscape? x inClass cs = some (n, k)) :
    ∃ w rest, cs = w ++ rest ∧ w.length = k ∧ CodeForm x.grammar inClass w rest n := by
  have hitself : ∀ {c : Char} {cs : List Char}, (identityEscape? x inClass c).map (·, 1) = some (n, k) →
      ∃ w rest, c :: cs = w ++ rest ∧ w.length = k ∧ CodeForm x.grammar inClass w rest n := by
    intro c cs h
    obtain ⟨m, hm, heq⟩ := Option.map_eq_some_iff.1 h
    cases heq
    rw [identityEscape?_eq hx] at hm
    split at hm
    next hc =>
      cases hm
      exact ⟨[c], cs, rfl, rfl, .itself hc⟩
    next => cases hm
  unfold codeEscape? at h
  split at h
  · cases h
  next c cs =>
    split at h
    iterate 5
      · cases h
        exact ⟨[_], cs, rfl, rfl, .letter (by decide)⟩
    · split at h
      next l tail =>
        split at h
        next hl =>
          cases h
          refine ⟨['c', l], tail, rfl, rfl, .control ?_⟩
          simpa [isControlLetter, hx] using hl
        next => cases h
      next => cases h
    · split at h
      next v hv =>
        cases h
        obtain ⟨ds, rest, rfl, hl, hn⟩ := exists_of_leadingHex? hv
        exact ⟨'x' :: ds, rest, rfl, by simp [hl], .hex hl hn⟩
      next => exact hitself h
    · split at h
      next v taken hv =>
        cases h
        obtain ⟨w, rest, rfl, hl, hw⟩ := exists_unicodeForm hv
        exact ⟨'u' :: w, rest, rfl, by simp [hl], .unicode hw⟩
      next => exact hitself h
    · split at h
      next hb =>
        cases h
        simp only [Bool.and_eq_true, decide_eq_true_eq] at hb
        obtain ⟨hclass, rfl⟩ := hb
        exact ⟨['b'], cs, rfl, rfl, .backspace hclass⟩
      next =>
        split at h
        next hd =>
          rw [digitEscape?, if_pos hx] at h
          split at h
          next hzero =>
            cases h
            simp only [Bool.and_eq_true, decide_eq_true_eq, Bool.not_eq_true'] at hzero
            obtain ⟨rfl, hrest⟩ := hzero
            exact ⟨['0'], cs, rfl, rfl, .zero hrest⟩
          next => cases h
        next => exact hitself h

theorem CodeForm.follow (h : CodeForm g inClass w rest n) (hs : SameStart rest rest') :
    CodeForm g inClass w rest' n := by
  cases h with
  | letter h => exact .letter h
  | control h => exact .control h
  | hex hl h => exact .hex hl h
  | unicode h => exact .unicode (h.follow hs)
  | backspace h => exact .backspace h
  | zero h => exact .zero (hs.head ▸ h)
  | itself h => exact .itself h

/-- The characters with which the escape of a code point can begin. -/
def codeStarts : List Char :=
  "tnvfrcxub0".toList ++ escapables

theorem CodeForm.exists_cons (h : CodeForm g inClass w rest n) :
    ∃ c v, w = c :: v ∧ c ∈ codeStarts ∧ (c = 'b' → inClass) := by
  cases h with
  | @letter c _ _ h =>
    have hall : ∀ p ∈ controlLetters, p.1 ∈ codeStarts ∧ p.1 ≠ 'b' := by decide
    exact ⟨c, [], rfl, (hall _ h).1, fun hb => absurd hb (hall _ h).2⟩
  | control | hex | unicode | zero => exact ⟨_, _, rfl, by decide, by decide +revert⟩
  | backspace h => exact ⟨_, _, rfl, by decide, fun _ => h⟩
  | @itself c _ h =>
    have hall : ∀ c ∈ escapables, c ≠ 'b' := List.all_iff_forall_prop.1 (by decide)
    have hmem := mem_escapables h
    exact ⟨c, [], rfl, List.mem_append_right _ hmem, fun hb => absurd hb (hall c hmem)⟩

/-! ## Sets -/

/-- The letters that stand for sets when they are escaped. -/
def setLetters : List (Char × CharSet) :=
  [('d', .digit), ('D', .complement .digit), ('s', .space), ('S', .complement .space),
    ('w', .word), ('W', .complement .word)]

/-- How the characters `w` of an escape write the set `s` in a strict grammar. -/
inductive SetForm (g : Grammar) : (w : List Char) → (s : CharSet) → Prop where
  | letter {c : Char} {s : CharSet} (h : (c, s) ∈ setLetters) : SetForm g [c] s
  | property {c : Char} {text : List Char} {s : CharSet} (hc : c ∈ ['p', 'P']) (hb : '\x7d' ∉ text)
    (h : propertySet? g (c = 'P') text = some s) :
    SetForm g (c :: '\x7b' :: (text ++ ['\x7d'])) s

/-- The characters with which the escape of a set can begin. -/
def setStarts : List Char :=
  "dDsSwWpP".toList

theorem SetForm.exists_cons (h : SetForm g w s) : ∃ c v, w = c :: v ∧ c ∈ setStarts := by
  cases h with
  | letter h =>
    have hall : ∀ c ∈ setLetters.map (·.1), c ∈ setStarts := List.all_iff_forall_prop.1 (by decide)
    exact ⟨_, _, rfl, hall _ (List.mem_map.2 ⟨_, h, rfl⟩)⟩
  | property hc =>
    have hall : ∀ c ∈ ['p', 'P'], c ∈ setStarts := List.all_iff_forall_prop.1 (by decide)
    exact ⟨_, _, rfl, hall _ hc⟩

theorem SetForm.setEscape?_eq (hg : g.isStrict) (h : SetForm g w s) (rest : List Char) :
    setEscape? g (w ++ rest) = some (some (s, w.length)) := by
  cases h with
  | letter h =>
    simp only [setLetters, List.mem_cons, Prod.mk.injEq, List.not_mem_nil, or_false] at h
    rcases h with ⟨rfl, rfl⟩ | ⟨rfl, rfl⟩ | ⟨rfl, rfl⟩ | ⟨rfl, rfl⟩ | ⟨rfl, rfl⟩ | ⟨rfl, rfl⟩ <;> rfl
  | @property c text _ hc hb h =>
    have happend : c :: '\x7b' :: (text ++ ['\x7d']) ++ rest = c :: '\x7b' :: (text ++ '\x7d' :: rest) := by
      simp
    simp only [List.mem_cons, List.not_mem_nil, or_false] at hc
    rw [happend, setEscape?]
    · rw [if_pos (by simpa [hg] using hc), span_closed hb]
      show some ((propertySet? g (c = 'P') text).map _) = _
      rw [h]
      simp
    all_goals
      rintro rfl
      simp at hc

/-- **What is read as a set has one of the forms.** -/
theorem exists_setForm (h : setEscape? g cs = some (some (s, k))) :
    ∃ w rest, cs = w ++ rest ∧ w.length = k ∧ SetForm g w s := by
  unfold setEscape? at h
  split at h
  iterate 6
    · cases h
      exact ⟨[_], _, rfl, rfl, .letter (by simp [setLetters])⟩
  next c cs _ _ _ _ _ _ =>
    split at h
    next hc =>
      split at h
      next cs =>
        split at h
        next text tail hspan =>
          obtain ⟨t, ht, heq⟩ := Option.map_eq_some_iff.1 (Option.some.inj h)
          cases heq
          obtain ⟨rfl, htext, -⟩ := of_span hspan
          simp only [Bool.and_eq_true, Bool.or_eq_true, decide_eq_true_eq] at hc
          exact ⟨c :: '\x7b' :: (text ++ ['\x7d']), tail, by simp, by simp,
            .property (by simpa using hc.2) (fun hmem => by simpa using htext _ hmem) ht⟩
        next => cases h
      next => cases h
    next => cases h
  next => cases h

/-- No escape of a code point is one of a set. -/
theorem CodeForm.setEscape?_eq_none (h : CodeForm g inClass w rest n) :
    setEscape? g (w ++ rest) = none := by
  obtain ⟨c, v, rfl, hc, -⟩ := h.exists_cons
  have hall : ∀ c ∈ codeStarts, c ≠ 'p' ∧ c ≠ 'P' := List.all_iff_forall_prop.1 (by decide)
  unfold setEscape?
  rw [List.cons_append]
  split
  iterate 6 next heq => exact absurd ((List.cons.inj heq).1 ▸ hc) (by decide)
  next d cs _ _ _ _ _ _ heq =>
    obtain ⟨rfl, -⟩ := List.cons.inj heq
    rw [if_neg (by simp [hall c hc])]
  next => rfl

/-! ## Names of groups -/

/-- Digits do not reach over a character that is none. -/
theorem leadingHex?_closed (hz : isDigit 16 z = false) (n : Nat) (ds rest rest' : List Char) :
    leadingHex? n (ds ++ z :: rest) = leadingHex? n (ds ++ z :: rest') := by
  by_cases hl : n ≤ ds.length
  · simp only [leadingHex?, List.take_append_of_le_length hl, List.length_append]
    rw [if_pos (by omega), if_pos (by omega)]
  · -- The character is among those that would have to be digits.
    have hnone : ∀ tail, leadingHex? n (ds ++ z :: tail) = none := by
      intro tail
      by_contra hsome
      obtain ⟨v, hv⟩ := Option.ne_none_iff_exists'.1 hsome
      obtain ⟨es, rest, heq, hes, hn⟩ := exists_of_leadingHex? hv
      have hmem : z ∈ es := by
        have hget : (es ++ rest)[ds.length]? = some z := by simp [← heq]
        rw [List.getElem?_append_left (by omega)] at hget
        exact List.mem_of_getElem? hget
      rw [(digits_of_number? hn).2 z hmem] at hz
      cases hz
    rw [hnone, hnone]

/-- A text begins alike in both cases, if it ends with a character that is no part of an escape. -/
theorem sameStart_closed (hz : isDigit 16 z = false) (hb : z ≠ '\\') (hu : z ≠ 'u')
    (v rest rest' : List Char) : SameStart (v ++ z :: rest) (v ++ z :: rest') := by
  refine ⟨by cases v <;> rfl, fun lead => ?_⟩
  rcases v with - | ⟨a, - | ⟨b, ds⟩⟩
  · rw [List.nil_append, List.nil_append, surrogatePair?_cons hb, surrogatePair?_cons hb]
  · by_cases ha : a = '\\'
    · subst ha
      exact (surrogatePair?_escape hu lead rest).trans (surrogatePair?_escape hu lead rest').symm
    · exact (surrogatePair?_cons ha lead _).trans (surrogatePair?_cons ha lead _).symm
  · by_cases ha : a = '\\'
    · subst ha
      by_cases hb : b = 'u'
      · subst hb
        show surrogatePair? lead ('\\' :: 'u' :: (ds ++ z :: rest))
          = surrogatePair? lead ('\\' :: 'u' :: (ds ++ z :: rest'))
        rw [surrogatePair?, surrogatePair?, leadingHex?_closed hz 4 ds rest rest']
      · exact (surrogatePair?_escape hb lead _).trans (surrogatePair?_escape hb lead _).symm
    · exact (surrogatePair?_cons ha lead _).trans (surrogatePair?_cons ha lead _).symm

/-- How the characters `v` before a `>` write a name. -/
inductive NameForm : (v name : List Char) → Prop where
  | nil : NameForm [] []
  | escape {w v name : List Char} {n : Nat} {c : Char} (h : UnicodeForm w (v ++ ['>']) n)
    (hc : charOf? n = some c) (hv : NameForm v name) : NameForm ('\\' :: 'u' :: (w ++ v)) (c :: name)
  | char {c : Char} {v name : List Char} (hc : c ≠ '>')
    (hu : ¬ (c = '\\' ∧ (v ++ ['>']).head? = some 'u')) (hv : NameForm v name) :
    NameForm (c :: v) (c :: name)

theorem NameForm.nameChars?_eq (h : NameForm v name) (rest : List Char) :
    nameChars? (v ++ '>' :: rest) = some (name, v.length + 1) := by
  induction h with
  | nil => rw [List.nil_append, nameChars?]; rfl
  | @escape w v name n c h hc hv ih =>
    have hw := (h.follow (sameStart_closed (by decide) (by decide) (by decide) v [] rest)).unicodeEscape?_eq
      (g := .unicode) rfl
    rw [List.cons_append, List.cons_append, List.append_assoc, nameChars?, hw]
    show ((charOf? n).bind fun c => (nameChars? ((w ++ (v ++ '>' :: rest)).drop w.length)).bind _) = _
    rw [hc, List.drop_left, ih]
    simp
    omega
  | @char c v name hc hu hv ih =>
    rw [List.cons_append, nameChars?]
    · rw [ih]
      rfl
    · exact hc
    · intro cs hb heq
      refine hu ⟨hb, ?_⟩
      cases v with
      | nil => cases heq
      | cons d v =>
        cases heq
        rfl

theorem UnicodeForm.closer_not_mem (h : UnicodeForm w rest n) : '>' ∉ w := by
  have hdigits : ∀ {ds : List Char}, (∀ c ∈ ds, isDigit 16 c) → '>' ∉ ds := fun hds hmem =>
    ne_of_isDigit (hds _ hmem) (by decide) rfl
  cases h with
  | braced h => simp [hdigits (digits_of_number? h).2]
  | unit hl h hp => exact hdigits (digits_of_number? h).2
  | pair hl h hl' hes hp => simp [hdigits (digits_of_number? h).2, hdigits hes]

/-- The first `>` ends a name. -/
theorem NameForm.closer_not_mem (h : NameForm v name) : '>' ∉ v := by
  induction h with
  | nil => simp
  | escape h hc hv ih => simp [h.closer_not_mem, ih]
  | char hc hu hv ih => simp [ih, hc.symm]

/-- **What is read as a name has the form of one.** -/
theorem exists_nameForm (h : nameChars? cs = some (name, k)) :
    ∃ v rest, cs = v ++ '>' :: rest ∧ v.length + 1 = k ∧ NameForm v name := by
  fun_induction nameChars? cs generalizing name k with
  | case1 => cases h
  | case2 tail =>
    cases h
    exact ⟨[], tail, rfl, rfl, .nil⟩
  | case3 cs ih =>
    obtain ⟨⟨n, taken⟩, hn, h⟩ := Option.bind_eq_some_iff.1 h
    obtain ⟨c, hc, h⟩ := Option.bind_eq_some_iff.1 h
    obtain ⟨⟨later, count⟩, hlater, h⟩ := Option.bind_eq_some_iff.1 h
    cases h
    obtain ⟨w, tail, rfl, hl, hw⟩ := exists_unicodeForm hn
    have hih := ih taken hlater
    rw [List.drop_left' hl] at hih
    obtain ⟨v, rest, rfl, hv, hform⟩ := hih
    refine ⟨'\\' :: 'u' :: (w ++ v), rest, by simp, by simp; omega, .escape ?_ hc hform⟩
    exact hw.follow (sameStart_closed (by decide) (by decide) (by decide) v rest [])
  | case4 c cs hc hu ih =>
    obtain ⟨⟨later, count⟩, hlater, h⟩ := Option.bind_eq_some_iff.1 h
    cases h
    obtain ⟨v, rest, rfl, hv, hform⟩ := ih hlater
    refine ⟨c :: v, rest, rfl, by simp [hv], .char hc ?_ hform⟩
    rintro ⟨rfl, hhead⟩
    cases v with
    | nil => cases hhead
    | cons d v =>
      cases hhead
      exact hu _ rfl rfl

/-! ## Texts in classes -/

/-- How the characters `v` before a closing brace write texts, the first of which begins with
`before`, in reverse. -/
inductive TextsForm (g : Grammar) : (before : Unicode.CodeText) → (v : List Char) →
    (texts : List Unicode.CodeText) → Prop where
  | nil {before : Unicode.CodeText} : TextsForm g before [] [before.reverse]
  | bar {before : Unicode.CodeText} {v : List Char} {texts : List Unicode.CodeText}
    (h : TextsForm g [] v texts) : TextsForm g before ('|' :: v) (before.reverse :: texts)
  | escape {before : Unicode.CodeText} {w v : List Char} {n : Nat} {texts : List Unicode.CodeText}
    (hw : CodeForm g true w (v ++ ['\x7d']) n) (h : TextsForm g (n :: before) v texts) :
    TextsForm g before ('\\' :: (w ++ v)) texts
  | char {before : Unicode.CodeText} {c : Char} {v : List Char} {texts : List Unicode.CodeText}
    (hc : isSetSyntaxChar c = false)
    (hd : (isReservedDouble c && (v ++ ['\x7d']).head? == some c) = false)
    (h : TextsForm g (c.toNat :: before) v texts) : TextsForm g before (c :: v) texts

theorem TextsForm.classTexts?_eq (hx : x.isStrict) (h : TextsForm x.grammar before v texts)
    (rest : List Char) :
    classTexts? x before (v ++ '\x7d' :: rest) = some (texts, v.length + 1) := by
  induction h with
  | nil => rw [List.nil_append, classTexts?]; rfl
  | bar h ih =>
    rw [List.cons_append, classTexts?, ih]
    rfl
  | @escape before w v n texts hw h ih =>
    have hcode := (hw.follow (sameStart_closed (by decide) (by decide) (by decide) v [] rest)).codeEscape?_eq hx
    rw [List.cons_append, List.append_assoc, classTexts?, textChar?, if_pos rfl, hcode]
    · show ((classTexts? x (n :: before) ((w ++ (v ++ '\x7d' :: rest)).drop w.length)).bind _) = _
      rw [List.drop_left, ih]
      simp
      omega
    · decide
    · decide
  | @char before c v texts hc hd h ih =>
    have hplain : c ≠ '\x7d' ∧ c ≠ '|' ∧ c ≠ '\\' := by
      refine ⟨?_, ?_, ?_⟩ <;> rintro rfl <;> exact absurd hc (by decide)
    have hhead : (v ++ '\x7d' :: rest).head? = (v ++ ['\x7d']).head? := by cases v <;> rfl
    rw [List.cons_append, classTexts?, textChar?, if_neg hplain.2.2, hhead, hc, hd,
      if_neg (by decide)]
    · show ((classTexts? x (c.toNat :: before) (v ++ '\x7d' :: rest)).bind _) = _
      rw [ih]
      rfl
    · exact hplain.1
    · exact hplain.2.1

/-- **What is read as texts of a class has the form of them.** -/
theorem exists_textsForm (hx : x.isStrict) (h : classTexts? x before cs = some (texts, k)) :
    ∃ v rest, cs = v ++ '\x7d' :: rest ∧ v.length + 1 = k ∧
      TextsForm x.grammar before v texts := by
  fun_induction classTexts? x before cs generalizing texts k with
  | case1 => cases h
  | case2 before tail =>
    cases h
    exact ⟨[], tail, rfl, rfl, .nil⟩
  | case3 before cs ih =>
    obtain ⟨⟨later, count⟩, hlater, h⟩ := Option.bind_eq_some_iff.1 h
    cases h
    obtain ⟨v, rest, rfl, hv, hform⟩ := ih hlater
    exact ⟨'|' :: v, rest, rfl, by simp [hv], .bar hform⟩
  | case4 before c cs hbrace hbar ih =>
    obtain ⟨⟨n, taken⟩, hn, h⟩ := Option.bind_eq_some_iff.1 h
    obtain ⟨⟨later, count⟩, hlater, h⟩ := Option.bind_eq_some_iff.1 h
    cases h
    have hih := ih n taken hlater
    unfold textChar? at hn
    split at hn
    next hc =>
      subst hc
      obtain ⟨w, tail, rfl, hl, hw⟩ := exists_codeForm hx hn
      rw [List.drop_left' hl] at hih
      obtain ⟨v, rest, rfl, hv, hform⟩ := hih
      refine ⟨'\\' :: (w ++ v), rest, by simp, by simp; omega, .escape ?_ hform⟩
      exact hw.follow (sameStart_closed (by decide) (by decide) (by decide) v rest [])
    next hc =>
      split at hn
      next => cases hn
      next hplain =>
        cases hn
        obtain ⟨v, rest, hcs, hv, hform⟩ := hih
        rw [List.drop_zero] at hcs
        subst hcs
        have hhead : (v ++ '\x7d' :: rest).head? = (v ++ ['\x7d']).head? := by cases v <;> rfl
        rw [hhead, Bool.not_eq_true, Bool.or_eq_false_iff] at hplain
        exact ⟨c :: v, rest, rfl, by simp [hv], .char hplain.1 hplain.2 hform⟩

end Diglot.Host
