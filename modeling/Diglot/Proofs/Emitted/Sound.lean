import Diglot.Emitted.Writer
import Diglot.Proofs.Emitted.Boundary
import Diglot.Proofs.Text.Decimal
import Mathlib.Algebra.Group.Nat.Defs

/-!
# The tokens that are written

Every text that the writer puts into a pattern as one token is read back as that token, whatever
comes after it that the token admits. References and markers need their numbers to be machine words,
because scanning refuses larger ones.
-/

namespace Diglot.Emitted

open Text

variable {c : Char} {cs body follow : List Char} {i depth n : Nat}

/-- A token that is found before every text is sound. -/
theorem Token.sound_of_forall {t : Token} (ht : t.text = c :: cs)
    (h : ∀ follow, scanAfter c (cs ++ follow) = .ok (t.kind, cs.length)) : t.Sound :=
  fun follow _ => ⟨c, cs, ht, h follow⟩

/-! ## Openers, closers and assertions -/

theorem sound_close : Token.Sound ⟨.close, [')']⟩ :=
  Token.sound_of_forall rfl fun _ => rfl

theorem sound_bar : Token.Sound ⟨.alternation, ['|']⟩ :=
  Token.sound_of_forall rfl fun _ => rfl

theorem sound_group : Token.Sound ⟨.groupOpen, "(?:".toList⟩ :=
  Token.sound_of_forall rfl fun _ => rfl

theorem sound_modifier : Token.Sound ⟨.groupOpen, "(?i:".toList⟩ :=
  Token.sound_of_forall rfl fun _ => rfl

theorem sound_atomic : Token.Sound ⟨.atomicOpen, "(?>".toList⟩ :=
  Token.sound_of_forall rfl fun _ => rfl

theorem sound_look (l : Look) : Token.Sound ⟨.lookOpen, lookText l⟩ := by
  rcases l with ⟨_ | _, _ | _⟩ <;> exact Token.sound_of_forall rfl fun _ => rfl

theorem sound_assertion (a : Core.Assertion) : Token.Sound ⟨.assertion, assertionText a⟩ := by
  rcases a with _ | _ | ⟨_ | _⟩ <;> exact Token.sound_of_forall rfl fun _ => rfl

theorem sound_capture : Token.Sound ⟨.captureOpen none, ['(']⟩ := by
  intro follow hf
  refine ⟨'(', [], rfl, ?_⟩
  show groupOpener follow = _
  refine groupOpener_of_head?_ne fun h => ?_
  simpa [Token.admits] using hf '?' h

theorem lengthThrough_append {closer : Char} (h : closer ∉ body) (follow : List Char) :
    lengthThrough closer (body ++ closer :: follow) = .ok (body.length + 1) := by
  have htake : (body ++ closer :: follow).takeWhile (· != closer) = body := by
    rw [List.takeWhile_append_of_pos (fun c hc => by simpa using ne_of_mem_of_not_mem hc h)]
    simp
  simp [lengthThrough, htake]

theorem sound_named {name : List Char} (hclose : '>' ∉ name)
    (hlook : ∀ c ∈ name.head?, c ≠ '=' ∧ c ≠ '!') :
    Token.Sound ⟨.captureOpen (some name), '(' :: '?' :: '<' :: (name ++ ['>'])⟩ := by
  refine Token.sound_of_forall rfl fun follow => ?_
  have hnext : ∀ c ∈ (name ++ '>' :: follow).head?, c ≠ '=' ∧ c ≠ '!' := by
    cases name with
    | nil => simp
    | cons c cs => simpa using hlook c (by simp)
  have hopen : groupOpener ('?' :: '<' :: (name ++ '>' :: follow))
      = .ok (.captureOpen (some name), name.length + 3) := by
    rw [groupOpener, lengthThrough_append hclose]
    · simp
    · intro tail htail
      exact (hnext '=' (by simp [htail])).1 rfl
    · intro tail htail
      exact (hnext '!' (by simp [htail])).2 rfl
  simpa [scanAfter] using hopen

/-! ## Quantifiers -/

/-- A text that scanning takes for a quantifier, up to the sign that may follow. -/
def IsSign (s : List Char) : Prop :=
  ∃ c cs, s = c :: cs ∧
    ∀ rest, scanAfter c (cs ++ rest) = .ok (quantifierWithSuffix cs.length rest)

theorem digitCount_append {ds : List Char} (hd : ∀ c ∈ ds, c.isDigit)
    (hf : ∀ c ∈ follow.head?, c.isDigit = false) : digitCount (ds ++ follow) = ds.length := by
  rw [digitCount, takeWhile_digits hd hf]

theorem digitCount_toDigits (n : Nat) (follow : List Char)
    (hf : ∀ c ∈ follow.head?, c.isDigit = false) :
    digitCount (Nat.toDigits 10 n ++ follow) = (Nat.toDigits 10 n).length :=
  digitCount_append (fun _ hc => isDigit_of_mem_decimal hc) hf

theorem intervalLength?_exact (n : Nat) (rest : List Char) :
    intervalLength? (Nat.toDigits 10 n ++ '\x7d' :: rest)
      = some ((Nat.toDigits 10 n).length + 1) := by
  have hlow := digitCount_toDigits n ('\x7d' :: rest) (by simp)
  simp [intervalLength?, hlow]

theorem intervalLength?_open (n : Nat) (rest : List Char) :
    intervalLength? (Nat.toDigits 10 n ++ ',' :: '\x7d' :: rest)
      = some ((Nat.toDigits 10 n).length + 2) := by
  have hlow := digitCount_toDigits n (',' :: '\x7d' :: rest) (by simp)
  have hhigh : digitCount ('\x7d' :: rest) = 0 := by simp [digitCount, isDigit_ten]
  simp [intervalLength?, hlow, hhigh]

theorem intervalLength?_between (n m : Nat) (rest : List Char) :
    intervalLength? (Nat.toDigits 10 n ++ ',' :: (Nat.toDigits 10 m ++ '\x7d' :: rest))
      = some ((Nat.toDigits 10 n).length + (Nat.toDigits 10 m).length + 2) := by
  have hlow := digitCount_toDigits n (',' :: (Nat.toDigits 10 m ++ '\x7d' :: rest)) (by simp)
  have hhigh := digitCount_toDigits m ('\x7d' :: rest) (by simp)
  simp [intervalLength?, hlow, hhigh]

/-- An interval is a sign if its length is found. -/
theorem isSign_interval (h : ∀ rest, intervalLength? (cs ++ rest) = some cs.length) :
    IsSign ('\x7b' :: cs) :=
  ⟨'\x7b', cs, rfl, fun rest => by simp [scanAfter, h rest]⟩

/-- What follows the sign of a quantifier. -/
def suffixText : RepeatKind → List Char
  | .greedy => []
  | .lazy => ['?']
  | .possessive => ['+']

theorem sound_sign {s : List Char} (h : IsSign s) (kind : RepeatKind) :
    Token.Sound ⟨.quantifier (kind = .possessive), s ++ suffixText kind⟩ := by
  obtain ⟨c, cs, rfl, hs⟩ := h
  cases kind with
  | greedy =>
    intro follow hf
    refine ⟨c, cs, by simp [suffixText], ?_⟩
    rw [hs]
    cases follow with
    | nil => rfl
    | cons d ds =>
      have hd : d ≠ '+' ∧ d ≠ '?' := by simpa [Token.admits] using hf d (by simp)
      unfold quantifierWithSuffix
      split <;> simp_all
  | lazy =>
    refine Token.sound_of_forall (List.cons_append ..) fun follow => ?_
    rw [List.append_assoc, hs]
    simp [suffixText, quantifierWithSuffix]
  | possessive =>
    refine Token.sound_of_forall (List.cons_append ..) fun follow => ?_
    rw [List.append_assoc, hs]
    simp [suffixText, quantifierWithSuffix]

theorem isSign_star : IsSign ['*'] := ⟨'*', [], rfl, fun _ => rfl⟩
theorem isSign_plus : IsSign ['+'] := ⟨'+', [], rfl, fun _ => rfl⟩
theorem isSign_question : IsSign ['?'] := ⟨'?', [], rfl, fun _ => rfl⟩

theorem exists_isSign (q : Quantifier) :
    ∃ s, IsSign s ∧ quantifierText q = s ++ suffixText q.kind := by
  refine ⟨_, ?_, rfl⟩
  split
  · exact isSign_star
  · exact isSign_plus
  · exact isSign_question
  · have h : ("\x7b" ++ toString q.min ++ ",\x7d").toList
        = '\x7b' :: (Nat.toDigits 10 q.min ++ [',', '\x7d']) := by simp
    rw [h]
    exact isSign_interval fun rest => by simpa using intervalLength?_open q.min rest
  · next m _ _ =>
    split
    · have h : ("\x7b" ++ toString q.min ++ "\x7d").toList
          = '\x7b' :: (Nat.toDigits 10 q.min ++ ['\x7d']) := by simp
      rw [h]
      exact isSign_interval fun rest => by simpa using intervalLength?_exact q.min rest
    · have h : ("\x7b" ++ toString q.min ++ "," ++ toString m ++ "\x7d").toList
          = '\x7b' :: (Nat.toDigits 10 q.min ++ ',' :: (Nat.toDigits 10 m ++ ['\x7d'])) := by simp
      rw [h]
      refine isSign_interval fun rest => ?_
      have hlen := intervalLength?_between q.min m rest
      simpa [Nat.add_assoc] using hlen

theorem sound_quantifier (q : Quantifier) :
    Token.Sound ⟨.quantifier (q.kind = .possessive), quantifierText q⟩ := by
  obtain ⟨s, hs, hq⟩ := exists_isSign q
  rw [hq]
  exact sound_sign hs q.kind

/-! ## References and markers -/

theorem escape_digit (hd : c.isDigit) (hz : c ≠ '0') (cs : List Char) :
    escape (c :: cs) =
      match number? 10 (2 ^ 64) ((c :: cs).take (digitCount (c :: cs))) with
      | some k => .ok (.backreference k, digitCount (c :: cs))
      | none => .error (.invalidReference .backreference, digitCount (c :: cs)) := by
  have hc : ('1' ≤ c && c ≤ '9') = true := by
    simp only [Char.isDigit, Bool.and_eq_true, decide_eq_true_eq, ge_iff_le] at hd
    have hne : c.val ≠ '0'.val := fun h => hz (Char.ext h)
    have h1 : '0'.val < c.val := by grind
    simp only [Bool.and_eq_true, decide_eq_true_eq]
    exact ⟨by rw [Char.le_def]; show '1'.val ≤ c.val; have : '0'.val + 1 = '1'.val := rfl; grind, hd.2⟩
  unfold escape
  split <;> first | (next h => cases h; done) | (next h => cases h; exact absurd hd (by decide)) | skip
  next h =>
    cases h
    exact if_pos hc

/-- What scanning makes of a number after a backslash: a reference, if it is a machine word. -/
theorem escape_toDigits (hpos : 0 < i) (hf : ∀ c ∈ follow.head?, c.isDigit = false) :
    escape (Nat.toDigits 10 i ++ follow) =
      if i < 2 ^ 64 then .ok (.backreference i, (Nat.toDigits 10 i).length)
      else .error (.invalidReference .backreference, (Nat.toDigits 10 i).length) := by
  obtain ⟨c, cs, hc, hd⟩ := exists_toDigits_eq_cons i
  have hz : c ≠ '0' := by
    rintro rfl
    exact toDigits_head_ne_zero hpos (by simp [hc])
  have hcount := digitCount_toDigits i follow hf
  rw [hc, List.cons_append, escape_digit hd hz, ← List.cons_append, ← hc, hcount, List.take_left,
    number?_toDigits]
  by_cases hi : i < 2 ^ 64
  · simp only [if_pos hi]
  · simp only [if_neg hi]

/-- **A reference by number reads back**, unless its number is no machine word. -/
theorem sound_reference (hpos : 0 < i) (hi : i < 2 ^ 64) :
    Token.Sound ⟨.backreference i, referenceText i⟩ := by
  intro follow hf
  refine ⟨'\\', Nat.toDigits 10 i, by simp [referenceText], ?_⟩
  show escape (Nat.toDigits 10 i ++ follow) = _
  rw [escape_toDigits hpos, if_pos hi]
  intro c hc
  simpa [Token.admits, isDigit_ten] using hf c hc

/-- A marker for the whole pattern reads back. -/
theorem sound_recursion (h : depth < 2 ^ 32) :
    Token.Sound ⟨.recursion depth, '(' :: '?' :: 'R' :: '=' :: (Nat.toDigits 10 depth ++ [')'])⟩ := by
  refine Token.sound_of_forall rfl fun follow => ?_
  have hcount := digitCount_toDigits depth (')' :: follow) (by simp)
  show groupOpener ('?' :: 'R' :: '=' :: (Nat.toDigits 10 depth ++ [')'] ++ follow)) = _
  rw [List.append_assoc, List.singleton_append, groupOpener, hcount]
  have h : depth < Nat.pow 2 32 := h
  simp only [List.drop_left, List.take_left, number?_toDigits, if_pos h]
  simp

theorem splitDepth_append {target : List Char} (h : '&' ∉ target) (depth : List Char) :
    splitDepth (target ++ '&' :: 'R' :: '=' :: depth) = some (target, depth) := by
  induction target with
  | nil => simp [splitDepth]
  | cons c cs ih =>
    simp only [List.mem_cons, not_or] at h
    rw [List.cons_append, splitDepth, ih h.2]
    · rfl
    · rintro d rfl _
      exact h.1 rfl

/-- The group that a marker with a number means. A number that is no machine word is taken for a
name. -/
def groupNumbered (i : Nat) : GroupName :=
  if i < 2 ^ 64 then .number i else .name (Nat.toDigits 10 i)

/-- A marker for a group reads back. -/
theorem sound_groupRecursion (i : Nat) (hd : depth < 2 ^ 32) :
    Token.Sound ⟨.groupRecursion (groupNumbered i) depth,
      '\\' :: 'g' :: '<' ::
        (Nat.toDigits 10 i ++ '&' :: 'R' :: '=' :: Nat.toDigits 10 depth ++ ['>'])⟩ := by
  refine Token.sound_of_forall rfl fun follow => ?_
  have hclose : '>' ∉ Nat.toDigits 10 i ++ '&' :: 'R' :: '=' :: Nat.toDigits 10 depth := by
    intro hmem
    simp only [List.mem_append, List.mem_cons] at hmem
    rcases hmem with h | h | h | h | h
    · simpa using isDigit_of_mem_decimal h
    · exact absurd h (by decide)
    · exact absurd h (by decide)
    · exact absurd h (by decide)
    · simpa using isDigit_of_mem_decimal h
  have hamp : '&' ∉ Nat.toDigits 10 i := fun hmem => by simpa using isDigit_of_mem_decimal hmem
  have hescape : ∀ body, '>' ∉ body → escape ('g' :: '<' :: (body ++ '>' :: follow))
      = groupRecursion body (body.length + 3) := by
    intro body hbody
    rw [escape, lengthThrough_append hbody]
    simp
  show escape ('g' :: '<' :: (_ ++ ['>'] ++ follow)) = _
  rw [List.append_assoc, List.singleton_append, hescape _ hclose, groupRecursion,
    splitDepth_append hamp]
  have hd : depth < Nat.pow 2 32 := hd
  simp only [signedNumber?_toDigits, if_pos hd]
  unfold groupNumbered
  by_cases hi : i < 2 ^ 64
  · have hi' : i < Nat.pow 2 64 := hi
    simp only [if_pos hi, if_pos hi']
    simp [Nat.add_assoc]
  · have hi' : ¬i < Nat.pow 2 64 := hi
    simp only [if_neg hi, if_neg hi']
    simp [Nat.add_assoc]

/-! ## Escapes -/

theorem exists_digit_of_mem_toDigits {b : Nat} (hb : 1 < b) (h : c ∈ Nat.toDigits b n) :
    ∃ d < b, c = d.digitChar := by
  induction n using Nat.strongRecOn with
  | ind n ih =>
    rw [Nat.toDigits_eq_if hb] at h
    split at h
    · next hlt => exact ⟨n, hlt, by simpa using h⟩
    · next hge =>
      rcases List.mem_append.mp h with h | h
      · exact ih (n / b) (Nat.div_lt_self (by omega) hb) h
      · exact ⟨n % b, Nat.mod_lt _ (by omega), by simpa using h⟩

/-- Hexadecimal digits are no braces and no brackets. -/
theorem hexDigits_plain {width : Nat} (h : c ∈ hexDigits width n) :
    c ∉ ['\x7b', '\x7d', '[', ']', '\\'] := by
  have hdigit : ∀ d < 16, d.digitChar.toUpper ∉ ['\x7b', '\x7d', '[', ']', '\\'] := by decide
  rw [hexDigits] at h
  rcases List.mem_append.mp h with h | h
  · rw [(List.mem_replicate.mp h).2]; decide
  · obtain ⟨d, hd, rfl⟩ := List.mem_map.mp h
    obtain ⟨k, hk, rfl⟩ := exists_digit_of_mem_toDigits (by decide) hd
    exact hdigit k hk

theorem length_hexDigits (h : n ≤ 0xFF) : (hexDigits 2 n).length = 2 := by
  have hle : (Nat.toDigits 16 n).length ≤ 2 :=
    (Nat.length_toDigits_le_iff (by decide) (by decide)).mpr (by omega)
  have hpos : 0 < (Nat.toDigits 16 n).length := Nat.length_toDigits_pos
  rw [hexDigits, List.length_append, List.length_replicate, List.length_map]
  omega

theorem sound_plain (h : c ∉ specials) : Token.Sound ⟨.atom, [c]⟩ := by
  refine Token.sound_of_forall rfl fun follow => ?_
  unfold scanAfter
  split <;> first | rfl | (exfalso; revert h; decide)

theorem sound_hex (h : n ≤ 0xFF) : Token.Sound ⟨.atom, '\\' :: 'x' :: hexDigits 2 n⟩ := by
  refine Token.sound_of_forall rfl fun follow => ?_
  obtain ⟨a, b, hab⟩ : ∃ a b, hexDigits 2 n = [a, b] := List.length_eq_two.mp (length_hexDigits h)
  have ha : a ≠ '\x7b' := by
    rintro rfl
    have hmem : '\x7b' ∈ hexDigits 2 n := by rw [hab]; exact List.mem_cons_self
    exact hexDigits_plain hmem (by decide)
  show escape ('x' :: (hexDigits 2 n ++ follow)) = _
  rw [hab, List.cons_append, escape]
  · simp [atomWith]
  · rintro rest heq
    cases heq
    exact ha rfl

theorem sound_braced {k : Char} (hk : k ∈ ['p', 'P', 'u', 'x']) (h : '\x7d' ∉ body) :
    Token.Sound ⟨.atom, '\\' :: k :: '\x7b' :: (body ++ ['\x7d'])⟩ := by
  refine Token.sound_of_forall rfl fun follow => ?_
  show escape (k :: '\x7b' :: (body ++ ['\x7d'] ++ follow)) = _
  have hthrough : atomThrough '\x7d' 2 (body ++ ['\x7d'] ++ follow) = .ok (.atom, body.length + 3) := by
    rw [List.append_assoc, List.singleton_append, atomThrough, lengthThrough_append h]
    simp [Nat.add_comm]
  rw [escape_braced hk, hthrough]
  simp

theorem sound_escapePlain (h : c ∉ specials) : Token.Sound ⟨.atom, escapePlain c⟩ := by
  unfold escapePlain
  split
  · exact Token.sound_of_forall rfl fun _ => rfl
  split
  · exact Token.sound_of_forall rfl fun _ => rfl
  split
  · exact Token.sound_of_forall rfl fun _ => rfl
  split
  · exact Token.sound_of_forall rfl fun _ => rfl
  split
  · exact Token.sound_of_forall rfl fun _ => rfl
  split
  · split
    · next hle => exact sound_hex hle
    · exact sound_braced (by decide) fun hmem => hexDigits_plain hmem (by decide)
  · exact sound_plain h

theorem sound_escapeChar (c : Char) : Token.Sound ⟨.atom, escapeChar c⟩ := by
  unfold escapeChar
  split
  · next h =>
    have hc : c ∈ specials := by simpa using h
    simp only [specials, List.mem_cons, List.not_mem_nil, or_false] at hc
    rcases hc with rfl | rfl | rfl | rfl | rfl | rfl | rfl | rfl | rfl | rfl | rfl | rfl | rfl | rfl | rfl <;>
      exact Token.sound_of_forall rfl fun _ => rfl
  · next h => exact sound_escapePlain (by simpa using h)

theorem sound_property {name : String} (h : '\x7d' ∉ name.toList) (negated : Bool) :
    Token.Sound ⟨.atom, propertyText name negated⟩ := by
  cases negated <;> exact sound_braced (by decide) h

theorem sound_builtin (kind : Core.Builtin) (negated : Bool) :
    Token.Sound ⟨.atom, builtinText kind negated⟩ := by
  cases kind <;> cases negated <;> exact Token.sound_of_forall rfl fun _ => rfl

/-! ## Classes -/

/-- How many more brackets open in a text than close, where those behind a backslash do not count. -/
def bracketExcess : List Char → Int
  | [] => 0
  | '\\' :: _ :: cs => bracketExcess cs
  | '[' :: cs => bracketExcess cs + 1
  | ']' :: cs => bracketExcess cs - 1
  | _ :: cs => bracketExcess cs

/-- A text that neither opens nor closes a class inside brackets: it can be passed over. -/
structure Passes (body : List Char) : Prop where
  length : ∀ depth n rest,
    classLength depth n (body ++ rest) = classLength depth (n + body.length) rest
  excess : ∀ rest, bracketExcess (body ++ rest) = bracketExcess rest

theorem passes_nil : Passes [] := ⟨fun _ _ _ => rfl, fun _ => rfl⟩

theorem Passes.append {a b : List Char} (ha : Passes a) (hb : Passes b) : Passes (a ++ b) where
  length depth n rest := by
    rw [List.append_assoc, ha.length, hb.length, List.length_append, Nat.add_assoc]
  excess rest := by rw [List.append_assoc, ha.excess, hb.excess]

theorem passes_flatten {texts : List (List Char)} (h : ∀ t ∈ texts, Passes t) :
    Passes texts.flatten := by
  induction texts with
  | nil => exact passes_nil
  | cons t ts ih =>
    rw [List.flatten_cons]
    exact (h t List.mem_cons_self).append (ih fun u hu => h u (List.mem_cons_of_mem _ hu))

theorem passes_flatMap {α : Type} {f : α → List Char} {xs : List α} (h : ∀ x, Passes (f x)) :
    Passes (xs.flatMap f) := by
  rw [List.flatMap_def]
  refine passes_flatten fun t ht => ?_
  obtain ⟨x, _, rfl⟩ := List.mem_map.mp ht
  exact h x

theorem passes_char (h : c ∉ ['[', ']', '\\']) : Passes [c] := by
  simp only [List.mem_cons, List.not_mem_nil, or_false, not_or] at h
  refine ⟨fun depth n rest => ?_, fun rest => ?_⟩
  · show classLength depth n (c :: rest) = classLength depth (n + 1) rest
    rw [classLength] <;> simp_all
  · show bracketExcess (c :: rest) = bracketExcess rest
    rw [bracketExcess] <;> simp_all

/-- A backslash takes the next character with it. -/
theorem passes_escape (c : Char) : Passes ['\\', c] where
  length depth n rest := by
    show classLength depth n ('\\' :: c :: rest) = classLength depth (n + 2) rest
    rw [classLength]
  excess rest := by
    show bracketExcess ('\\' :: c :: rest) = bracketExcess rest
    rw [bracketExcess]

theorem passes_plain (h : ∀ c ∈ body, c ∉ ['[', ']', '\\']) : Passes body := by
  induction body with
  | nil => exact passes_nil
  | cons c cs ih =>
    exact (passes_char (h c List.mem_cons_self)).append
      (ih fun d hd => h d (List.mem_cons_of_mem _ hd))

/-- A text in braces can be passed over if it has no brackets. A backslash at its end takes the
closing brace with it, and any other the character after it. -/
theorem passes_braced : ∀ body : List Char, (∀ c ∈ body, c ≠ '[' ∧ c ≠ ']') →
    Passes (body ++ ['\x7d'])
  | [], _ => passes_char (by decide)
  | [c], h => by
    by_cases hc : c = '\\'
    · rw [hc]
      exact passes_escape '\x7d'
    · have hb := h c List.mem_cons_self
      exact (passes_char (by simp [hb.1, hb.2, hc])).append (passes_char (by decide))
  | c :: d :: ds, h => by
    by_cases hc : c = '\\'
    · rw [hc]
      exact (passes_escape d).append (passes_braced ds fun e he => h e (by simp [he]))
    · have hb := h c List.mem_cons_self
      exact (passes_char (by simp [hb.1, hb.2, hc])).append
        (passes_braced (d :: ds) fun e he => h e (List.mem_cons_of_mem _ he))

/-- A class in brackets reads back as one token. -/
theorem sound_class (h : Passes body) : Token.Sound ⟨.atom, '[' :: (body ++ [']'])⟩ := by
  refine Token.sound_of_forall rfl fun follow => ?_
  show (classLength 0 0 (body ++ [']'] ++ follow)).map _ = _
  rw [List.append_assoc, h.length, List.singleton_append, classLength]
  simp [Except.map]

end Diglot.Emitted
