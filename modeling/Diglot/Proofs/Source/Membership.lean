import Diglot.Flags
import Diglot.Host.CharSet
import Diglot.Proofs.Source.Reading
import Diglot.Unicode.Posix
import Diglot.Unicode.PropertyName

/-!
# Members of source classes

Which characters a bracketed class has: the union of its items, the complement of that if the class
is negated, and for an intersection the characters that all operands have in common. Digits, blanks
and word characters depend on the flags of the pattern, and property and POSIX names mean what the
tables say.
-/

namespace Diglot

open Unicode Host

/-! ## Names -/

namespace Unicode

/-- Whether a character is in a part of a POSIX class. -/
def PosixPart.has : PosixPart → Char → Bool
  | range a b, c => a ≤ c && c ≤ b
  | property name, c => (Property.ofText? name.toList).any (·.has c)

/-- Whether a character is in a POSIX class. -/
def PosixClass.has (p : PosixClass) (c : Char) : Bool :=
  p.negated != p.parts.any (·.has c)

/-- The properties that POSIX classes are made of. -/
def posixProperties : List String :=
  ["Alphabetic", "Cc", "Cn", "Cs", "L", "Lowercase", "M", "N", "Nd", "P", "Pc", "Uppercase",
    "White_Space", "Zs"]

/-- Whether a part is a range that goes upwards or one of these properties. -/
def PosixPart.regular : PosixPart → Bool
  | range a b => a ≤ b
  | property name => posixProperties.contains name

theorem regular_of_posixClass? {ascii : Bool} {name : String} {p : PosixClass}
    (h : posixClass? ascii name = some p) : p.parts.all PosixPart.regular := by
  cases ascii
  · replace h : unicodePosix? name = some p := h
    unfold unicodePosix? at h
    split at h <;> cases h <;> decide
  · replace h : asciiPosix? name = some p := h
    unfold asciiPosix? at h
    split at h <;> cases h <;> decide

end Unicode

/-- The property that the source dialect means by a name, as far as the host knows it. -/
def Source.property? (name : String) : Option Property :=
  Property.ofText? (propertyExpression name.toList)

/-- Whether the flags give a POSIX name its ASCII meaning. -/
def Flags.posixIsAscii (f : Flags) (name : String) : Bool :=
  (f.asciiDigit && name == "digit") || (f.asciiSpace && name == "space")
    || (f.asciiWord && (name == "word" || name == "alnum"))

/-- What a POSIX name means under the flags. -/
def Flags.posixClass? (f : Flags) (name : String) : Option PosixClass :=
  Unicode.posixClass? (f.posixIsAscii name) name

namespace Source

open Reader

/-! ## Members -/

/-- Whether a character is in a named set. -/
def CharSet.has (f : Flags) : CharSet → Char → Bool
  | digit negated, c =>
    negated != if f.asciiDigit then '0' ≤ c && c ≤ '9' else Category.nd.has c
  | word negated, c =>
    negated != if f.asciiWord then isAsciiWord c
      else hasCategory (Category.letters ++ Category.marks ++ Category.numbers ++ [.pc]) c
  | space negated, c =>
    negated != if f.asciiSpace then ('\t' ≤ c && c ≤ '\r') || c = ' ' else isWhitespace c
  | hex negated, c =>
    negated != (('0' ≤ c && c ≤ '9') || ('A' ≤ c && c ≤ 'F') || ('a' ≤ c && c ≤ 'f'))
  | property name negated, c => negated != (property? name).any (·.has c)
  | posix name negated, c => negated != (f.posixClass? name).any (·.has c)
  | notNewline, c => c != '\n'
  | any, _ => true

mutual

/-- Whether a character is in a class. -/
def CharClass.has (f : Flags) : CharClass → Char → Bool
  | .mk negated items, c => negated != anyHas f items c

/-- Whether a character is in an item of a class. -/
def ClassItem.has (f : Flags) : ClassItem → Char → Bool
  | .char d, c => c = d
  | .range a b, c => a ≤ c && c ≤ b
  | .set s, c => s.has f c
  | .nested cls, c => cls.has f c
  | .intersection operands, c => allHave f operands c

/-- Whether a character is in one of the items. -/
def anyHas (f : Flags) : List ClassItem → Char → Bool
  | [], _ => false
  | i :: is, c => i.has f c || anyHas f is c

/-- Whether a character is in all of the classes. -/
def allHave (f : Flags) : List CharClass → Char → Bool
  | [], _ => true
  | k :: ks, c => k.has f c && allHave f ks c

end

/-! ## Classes that can be lowered -/

/-- Whether the name of a set is known. Under strict accuracy the host must have exactly the set. -/
def CharSet.known (f : Flags) (strict : Bool) : CharSet → Bool
  | property name _ => (property? name).isSome
  | posix name _ => (f.posixClass? name).any fun p => p.exact || !strict
  | _ => true

mutual

/-- Whether all names in a class are known. -/
def CharClass.known (f : Flags) (strict : Bool) : CharClass → Bool
  | .mk _ items => itemsKnown f strict items

/-- Whether all names in an item of a class are known. -/
def ClassItem.known (f : Flags) (strict : Bool) : ClassItem → Bool
  | .set s => s.known f strict
  | .nested cls => cls.known f strict
  | .intersection operands => classesKnown f strict operands
  | .char _ | .range _ _ => true

/-- Whether all names in the items are known. -/
def itemsKnown (f : Flags) (strict : Bool) : List ClassItem → Bool
  | [] => true
  | i :: is => i.known f strict && itemsKnown f strict is

/-- Whether all names in the classes are known. -/
def classesKnown (f : Flags) (strict : Bool) : List CharClass → Bool
  | [] => true
  | k :: ks => k.known f strict && classesKnown f strict ks

end

end Source

end Diglot
