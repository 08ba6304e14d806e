import Diglot.Unicode.Binary
import Diglot.Unicode.Category

/-!
# Kinds of characters

The yes-or-no questions that the readers and writers ask about a single character.
-/

namespace Diglot.Unicode

def isAlphabetic (c : Char) : Bool :=
  hasCategory Category.letters c || Category.nl.has c || inRuns otherAlphabeticRuns c

def isUppercase (c : Char) : Bool :=
  Category.lu.has c || inRuns otherUppercaseRuns c

def isLowercase (c : Char) : Bool :=
  Category.ll.has c || inRuns otherLowercaseRuns c

/-- Alphabetic, or of one of the number categories. -/
def isAlphanumeric (c : Char) : Bool :=
  isAlphabetic c || hasCategory Category.numbers c

def isWhitespace (c : Char) : Bool :=
  inRuns whiteSpaceRuns c

/-- A control character, category `Cc`. -/
def isControl (c : Char) : Bool :=
  Category.cc.has c

/-- The property `Grapheme_Extend`: whether a character extends the one before it. -/
def isGraphemeExtend (c : Char) : Bool :=
  hasCategory [.mn, .me] c || inRuns otherGraphemeExtendRuns c

/-- Whether a character is a mark that extends the character before it, as an accent is. -/
def isExtendingMark (c : Char) : Bool :=
  isGraphemeExtend c && hasCategory Category.marks c

/-- Whether a character shows as itself in print: it is the blank, or assigned and neither a
separator nor of the categories for control, format, surrogate and private use, nor one that is
ignored in print by default. -/
def isPrintable (c : Char) : Bool :=
  c = ' ' || isAssigned c && !hasCategory (Category.separators ++ Category.others) c
    && !inRuns defaultIgnorableRuns c

end Diglot.Unicode
