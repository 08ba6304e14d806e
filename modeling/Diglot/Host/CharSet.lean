import Diglot.Host.Mode
import Diglot.Host.Property
import Diglot.Text.Digits
import Diglot.Unicode.EmojiSequence

/-!
# Sets of characters of the host

What one position of a pattern can match: a literal, an escape such as `\d`, a property or a class.
A class can also have whole texts as members, which are then preferred to single characters.
When case is ignored, a set matches a character if it has a character alike. Where complements come
in, the grammars differ. With flag `v` a complement is taken of the characters that are alike to a
member; with flag `u` it is taken of the members alone, except for the complement of a whole class.
-/

namespace Diglot.Host

open Unicode

/-- A set of characters as it is written. -/
inductive CharSet where
  | empty
  /-- The characters with code points from `low` to `high` -/
  | span (low high : Nat)
  | digit
  | space
  | word
  | property (p : Property)
  /-- The characters and texts that are listed -/
  | texts (ts : List CodeText)
  | union (a b : CharSet)
  | inter (a b : CharSet)
  | diff (a b : CharSet)
  | complement (a : CharSet)
  deriving DecidableEq, Repr, Inhabited

/-- Whether a character ends a line. -/
def isLineEnd (c : Char) : Bool :=
  c = '\n' || c = '\r' || c = '\u2028' || c = '\u2029'

/-- Whether a character is blank for `\s`. -/
def isSpace (c : Char) : Bool :=
  isLineEnd c || ['\t', '\x0b', '\x0c', '\ufeff'].contains c || Category.zs.has c

/-- Whether a character is an ASCII letter, a digit or the underscore. -/
def isAsciiWord (c : Char) : Bool :=
  ('a' ≤ c && c ≤ 'z') || ('A' ≤ c && c ≤ 'Z') || ('0' ≤ c && c ≤ '9') || c = '_'

/-- The capital form that stands for a character in the loose grammar: its uppercase, unless that is
several characters or an ASCII character for one that is not. -/
def capital (c : Char) : Char :=
  match upper c with
  | [u] => if 0x80 ≤ c.toNat && u.toNat < 0x80 then c else u
  | _ => c

/-- The character that stands for all that are alike when case is ignored. -/
def Grammar.canonical (g : Grammar) (c : Char) : Char :=
  if g.isStrict then fold c else capital c

/-- The characters alike to a character when case is ignored. -/
def Grammar.alike (g : Grammar) (c : Char) : List Char :=
  if g.isStrict then foldedAlike c
  else (c :: foldedAlike c).filter fun a => capital a == capital c

/-- Whether two characters count as the same. -/
def Mode.same (m : Mode) (g : Grammar) (a b : Char) : Bool :=
  a == b || (m.ignoreCase && g.canonical a == g.canonical b)

def Mode.sameCode (m : Mode) (g : Grammar) (a b : Nat) : Bool :=
  a == b || match Text.charOf? a, Text.charOf? b with
    | some a, some b => m.same g a b
    | _, _ => false

/-- Whether a character is a word character. In a strict grammar that ignores case, a character that
folds to a word character is one. -/
def Mode.isWord (m : Mode) (g : Grammar) (c : Char) : Bool :=
  isAsciiWord c || (m.ignoreCase && g.isStrict && isAsciiWord (fold c))

namespace CharSet

/-- Whether a set has a character. A part of the set that is no combination of others is asked
through `ask`, and `isWord` says what `\w` has. -/
def has (ask : (Char → Bool) → Char → Bool) (isWord : Char → Bool) : CharSet → Char → Bool
  | empty, _ => false
  | span low high, c => ask (fun c => low ≤ c.toNat && c.toNat ≤ high) c
  | digit, c => ask (fun c => '0' ≤ c && c ≤ '9') c
  | space, c => ask isSpace c
  | word, c => ask isWord c
  | property p, c => ask p.has c
  | texts ts, c => ask (fun c => ts.contains [c.toNat]) c
  | union a b, c => a.has ask isWord c || b.has ask isWord c
  | inter a b, c => a.has ask isWord c && b.has ask isWord c
  | diff a b, c => a.has ask isWord c && !b.has ask isWord c
  | complement a, c => !a.has ask isWord c

/-- Whether a set, or what it leaves out if it is negated, matches a character. -/
def accepts (g : Grammar) (m : Mode) (negated : Bool) (s : CharSet) (c : Char) : Bool :=
  let isWord := m.isWord g
  let ask := fun (p : Char → Bool) c => p c || (g.alike c).any p
  negated != match m.ignoreCase, g with
    | false, _ => s.has id isWord c
    | true, .sets => s.has ask isWord c
    | true, _ => ask (s.has id isWord) c

/-! ## Texts as members -/

/-- The texts that may be members of a set and are no single characters. -/
def candidates : CharSet → List CodeText
  | texts ts => ts.filter (·.length != 1)
  | union a b | inter a b => a.candidates ++ b.candidates
  | diff a _ => a.candidates
  | _ => []

/-- Whether a set has a text, where `same` says which code points count as the same. -/
def hasText (same : Nat → Nat → Bool) : CharSet → CodeText → Bool
  | texts ts, t => ts.any fun u => u.length == t.length && (u.zip t).all fun (a, b) => same a b
  | union a b, t => a.hasText same t || b.hasText same t
  | inter a b, t => a.hasText same t && b.hasText same t
  | diff a b, t => a.hasText same t && !b.hasText same t
  | _, _ => false

/-- Whether a set is written so that texts can be its members. Such a set has no complement. -/
def mayHaveTexts : CharSet → Bool
  | texts ts => ts.any (·.length != 1)
  | union a b => a.mayHaveTexts || b.mayHaveTexts
  | inter a b => a.mayHaveTexts && b.mayHaveTexts
  | diff a _ => a.mayHaveTexts
  | _ => false

end CharSet

end Diglot.Host
