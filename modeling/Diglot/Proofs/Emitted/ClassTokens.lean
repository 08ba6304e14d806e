import Diglot.Proofs.Emitted.Hexadecimal
import Diglot.Proofs.Host.Escapes
import Diglot.Proofs.Host.Lexing

/-!
# Tokens of written classes

The host reads each text that the writer puts into brackets as the tokens that are meant: an escaped
character as its code point, a property or a shorthand as its set, whatever comes after it.
-/

namespace Diglot.Emitted

open Diglot.Core Host Text

variable {c : Char} {n : Nat} {cs : List Char} {p : Host.Property} {x : Dialect} {v : Bool}

/-- The grammar in which classes are written, with flag `v` or without. -/
def classGrammar (v : Bool) : Grammar :=
  if v then .sets else .unicode

theorem classGrammar_isStrict (v : Bool) : (classGrammar v).isStrict = true := by
  cases v <;> rfl

/-! ## Code points -/

theorem token?_class (depth : Nat) (c : Char) (cs : List Char) :
    token? x (depth + 1) c cs = classToken? x c cs :=
  if_neg (Nat.succ_ne_zero depth)

/-- A special character after a backslash stands for itself. -/
theorem classToken?_special (hx : x.grammar = classGrammar v)
    (hc : c ∈ classSpecials ∨ v = true ∧ c ∈ setSpecials) (rest : List Char) :
    classToken? x '\\' (c :: rest) = some (.code c.toNat, 1) := by
  obtain ⟨grammar, extended, named, captures⟩ := x
  subst hx
  rcases hc with hc | ⟨rfl, hc⟩
  · have hall : ∀ c ∈ classSpecials,
        classToken? ⟨classGrammar v, extended, named, captures⟩ '\\' (c :: rest)
          = some (.code c.toNat, 1) := by
      simp only [classSpecials, List.forall_mem_cons]
      cases v <;> exact ⟨rfl, rfl, rfl, rfl, rfl, by simp⟩
    exact hall c hc
  · have hall : ∀ c ∈ setSpecials,
        classToken? ⟨classGrammar true, extended, named, captures⟩ '\\' (c :: rest)
          = some (.code c.toNat, 1) := by
      simp only [setSpecials, List.forall_mem_cons]
      exact ⟨rfl, rfl, rfl, rfl, rfl, rfl, rfl, rfl, rfl, rfl, rfl, rfl, rfl, rfl, rfl, rfl, rfl,
        rfl, rfl, rfl, rfl, rfl, rfl, rfl, by simp⟩
    exact hall c hc

/-- A backslash before a letter that stands for no set begins the escape of a code point. -/
theorem classToken?_escape (hx : x.grammar = classGrammar v) (hc : c = 'x' ∨ c = 'u')
    (cs : List Char) : classToken? x '\\' (c :: cs) = codeToken? x true (c :: cs) := by
  obtain ⟨grammar, extended, named, captures⟩ := x
  subst hx
  rcases hc with rfl | rfl <;> cases v <;> rfl

theorem codeToken?_hex (inClass : Bool) (h : n ≤ 0xFF) (rest : List Char) :
    codeToken? x inClass ('x' :: (hexDigits 2 n ++ rest)) = some (.code n, 3) := by
  have hlength := length_hexDigits h
  have hlead : leadingHex? 2 (hexDigits 2 n ++ rest) = some n := by
    rw [leadingHex?, if_pos (by simp [hlength]), List.take_left' hlength, number?_hexDigits,
      if_pos (show n < Nat.pow 16 2 from Nat.lt_succ_of_le h)]
  rw [codeToken?, codeEscape?, hlead]

theorem codeToken?_braced (hx : x.grammar = classGrammar v) (inClass : Bool) (h : n < 0x110000)
    (rest : List Char) :
    codeToken? x inClass ('u' :: '\x7b' :: (hexDigits 1 n ++ '\x7d' :: rest))
      = some (.code n, (hexDigits 1 n).length + 3) := by
  have hspan : (hexDigits 1 n ++ '\x7d' :: rest).span (isDigit 16)
      = (hexDigits 1 n, '\x7d' :: rest) :=
    span_append (fun c hc => isDigit_of_mem_hexDigits hc) rfl
  have hcode : unicodeEscape? x.grammar ('\x7b' :: (hexDigits 1 n ++ '\x7d' :: rest))
      = some (n, (hexDigits 1 n).length + 2) := by
    rw [unicodeEscape?, hx, if_pos (classGrammar_isStrict v), hspan]
    simp [number?_hexDigits, h]
  rw [codeToken?, codeEscape?, hcode]

/-- A character that is special in no class stands for itself. -/
theorem classToken?_plain (hx : x.grammar = classGrammar v) (hc : c ∉ classSpecials)
    (hv : v = true → c ∉ setSpecials) (rest : List Char) :
    classToken? x c rest = some (.code c.toNat, 0) := by
  obtain ⟨grammar, extended, named, captures⟩ := x
  subst hx
  simp only [classSpecials, List.mem_cons, List.not_mem_nil, or_false, not_or] at hc
  obtain ⟨hbackslash, hclose, hopen, hcaret, hhyphen⟩ := hc
  cases v with
  | false => simp [classToken?, classGrammar, hbackslash, hclose, hhyphen]
  | true =>
    have hset := hv rfl
    simp only [setSpecials, List.mem_cons, List.not_mem_nil, or_false, not_or] at hset
    simp [classToken?, classGrammar, isSetSyntaxChar, isReservedDouble, hbackslash, hclose, hopen,
      hcaret, hhyphen, hset]

theorem toNat_lt (c : Char) : c.toNat < 0x110000 := by
  rcases c.valid with h | h
  · exact Nat.lt_trans h (by decide)
  · exact h.2

/-- The escapes of blanks that have a letter of their own. -/
theorem classToken?_blank (hx : x.grammar = classGrammar v) {l : Char}
    (h : (l, c) ∈ [('n', '\n'), ('r', '\r'), ('t', '\t'), ('v', '\x0b'), ('f', '\x0c')])
    (rest : List Char) : classToken? x '\\' (l :: rest) = some (.code c.toNat, 1) := by
  obtain ⟨grammar, extended, named, captures⟩ := x
  subst hx
  simp only [List.mem_cons, List.not_mem_nil, or_false, Prod.mk.injEq] at h
  rcases h with ⟨rfl, rfl⟩ | ⟨rfl, rfl⟩ | ⟨rfl, rfl⟩ | ⟨rfl, rfl⟩ | ⟨rfl, rfl⟩ <;> cases v <;> rfl

/-- A text that the host takes for a code point inside a class, whatever follows it. -/
theorem lexes_code (h : ∀ rest, classToken? x c (cs ++ rest) = some (.code n, cs.length))
    (depth : Nat) : Lexes x (depth + 1) (depth + 1) (c :: cs) [.code n] :=
  Lexes.token fun rest => by rw [token?_class, h rest]

/-- A character that is special in no class, with blanks and control characters escaped, is read as
its code point. -/
theorem lexes_escapePlain (hx : x.grammar = classGrammar v) (hc : c ∉ classSpecials)
    (hv : v = true → c ∉ setSpecials) (depth : Nat) :
    Lexes x (depth + 1) (depth + 1) (escapePlain c) [.code c.toNat] := by
  unfold escapePlain
  split_ifs with hn hr ht hvt hff hcontrol hle
  · show Lexes x (depth + 1) (depth + 1) ['\\', 'n'] _
    exact lexes_code (fun rest => classToken?_blank hx (by simp [hn]) rest) depth
  · show Lexes x (depth + 1) (depth + 1) ['\\', 'r'] _
    exact lexes_code (fun rest => classToken?_blank hx (by simp [hr]) rest) depth
  · show Lexes x (depth + 1) (depth + 1) ['\\', 't'] _
    exact lexes_code (fun rest => classToken?_blank hx (by simp [ht]) rest) depth
  · show Lexes x (depth + 1) (depth + 1) ['\\', 'v'] _
    exact lexes_code (fun rest => classToken?_blank hx (by simp [hvt]) rest) depth
  · show Lexes x (depth + 1) (depth + 1) ['\\', 'f'] _
    exact lexes_code (fun rest => classToken?_blank hx (by simp [hff]) rest) depth
  · refine lexes_code (fun rest => ?_) depth
    rw [List.cons_append, classToken?_escape hx (.inl rfl), codeToken?_hex true hle,
      List.length_cons, length_hexDigits hle]
  · show Lexes x (depth + 1) (depth + 1)
      ('\\' :: 'u' :: '\x7b' :: (hexDigits 1 c.toNat ++ ['\x7d'])) _
    refine lexes_code (fun rest => ?_) depth
    have hcode := codeToken?_braced hx true (toNat_lt c) rest
    rw [← classToken?_escape hx (.inr rfl)] at hcode
    simpa using hcode
  · exact lexes_code (fun rest => classToken?_plain hx hc hv rest) depth

/-- **A character inside a class is read as its code point.** -/
theorem lexes_escapeInClass (hx : x.grammar = classGrammar v) (depth : Nat) (c : Char) :
    Lexes x (depth + 1) (depth + 1) (escapeInClass v c) [.code c.toNat] := by
  unfold escapeInClass
  split
  next hc =>
    refine lexes_code (fun rest => classToken?_special hx ?_ rest) depth
    simpa using hc
  next hc =>
    simp only [Bool.or_eq_true, Bool.and_eq_true, List.contains_iff_mem, not_or, not_and] at hc
    exact lexes_escapePlain hx hc.1 hc.2 depth

/-- What is written for a character inside a class begins with no sign of the class. -/
theorem head_escapeInClass (v : Bool) (c : Char) :
    ∀ d ∈ (escapeInClass v c).head?, d ≠ '^' ∧ d ≠ '-' := by
  unfold escapeInClass
  split
  next => simp
  next hc =>
    simp only [Bool.or_eq_true, List.contains_iff_mem, not_or] at hc
    unfold escapePlain
    split_ifs
    all_goals try simp
    constructor <;> rintro rfl <;> exact hc.1 (by decide)

/-! ## Sets -/

/-- The escape of a set is read alike outside classes and inside. -/
theorem token?_set (hc : c ∈ ['d', 'D', 's', 'S', 'w', 'W', 'p', 'P']) {set : Host.CharSet}
    (h : setEscape? x.grammar (c :: cs) = some (some (set, n))) (depth : Nat) :
    token? x depth '\\' (c :: cs) = some (.set set, n) := by
  simp only [List.mem_cons, List.not_mem_nil, or_false] at hc
  have hdigit : isDigit 10 c = false := by
    rcases hc with rfl | rfl | rfl | rfl | rfl | rfl | rfl | rfl <;> rfl
  unfold token?
  split
  · have hnone : (c :: cs).takeWhile (isDigit 10) = [] :=
      List.takeWhile_cons_of_neg (Bool.eq_false_iff.1 hdigit)
    unfold plainToken?
    rcases hc with rfl | rfl | rfl | rfl | rfl | rfl | rfl | rfl <;>
    · dsimp only
      rw [hnone, h]
      rfl
  · rw [classToken?, if_neg (by decide), if_pos rfl]
    simp [classEscape?, h]

/-- The set of a shorthand class. -/
def builtinSet : Builtin → Host.CharSet
  | .digit => .digit
  | .word => .word
  | .space => .space

/-- A set or its complement. -/
def signedSet (negated : Bool) (s : Host.CharSet) : Host.CharSet :=
  if negated then .complement s else s

theorem lexes_builtin (kind : Builtin) (negated : Bool) (depth : Nat) :
    Lexes x depth depth (builtinText kind negated) [.set (signedSet negated (builtinSet kind))] := by
  cases kind <;> cases negated <;>
    exact Lexes.token fun rest => token?_set (by decide) rfl depth

theorem setEscape?_property {g : Grammar} (hg : g.isStrict = true) {text : List Char}
    (h : '\x7d' ∉ text) (hp : Property.ofText? text = some p) (negated : Bool) (rest : List Char) :
    setEscape? g ((if negated then 'P' else 'p') :: '\x7b' :: (text ++ '\x7d' :: rest))
      = some (some (signedSet negated (.property p), text.length + 3)) := by
  have hall : ∀ c ∈ text, (c != '\x7d') = true := by
    intro c hc
    simpa using ne_of_mem_of_not_mem hc h
  cases negated <;> simp [setEscape?, hg, List.takeWhile_append_of_pos hall,
    List.dropWhile_append_of_pos hall, propertySet?, hp, signedSet]

theorem lexes_property (hx : x.isStrict = true) {name : String} (h : '\x7d' ∉ name.toList)
    (hp : Property.ofText? name.toList = some p) (negated : Bool) (depth : Nat) :
    Lexes x depth depth (propertyText name negated) [.set (signedSet negated (.property p))] := by
  refine Lexes.token fun rest => token?_set (by cases negated <;> decide) ?_ depth
  have hset := setEscape?_property hx h hp negated rest
  simpa using hset

end Diglot.Emitted
