import Diglot.Core.CharClass
import Diglot.Emitted.CaseMode
import Diglot.Emitted.Escape

/-!
# Writing classes

A class is written in flat brackets. What brackets cannot hold is written around them: a class
inside a class as an alternative, an intersection as a chain of looks ahead, a complement of those
as a negative look ahead before any character.
-/

namespace Diglot.Emitted

open Diglot.Core Unicode

/-- How classes are written. -/
structure ClassStyle where
  /-- Whether flag `v` is in force. -/
  v : Bool
  /-- Whether case variants are written out. -/
  expand : Bool
  /-- Whether approximations are refused. -/
  strict : Bool

/-- The widest range whose case variants are written out. -/
def widestExpansion : Nat := 0x3000

def propertyText (name : String) (negated : Bool) : Text :=
  '\\' :: (if negated then 'P' else 'p') :: '\x7b' :: name.toList ++ ['\x7d']

def builtinText : Builtin → Bool → Text
  | .digit, negated => ['\\', if negated then 'D' else 'd']
  | .word, negated => ['\\', if negated then 'W' else 'w']
  | .space, negated => ['\\', if negated then 'S' else 's']

def anyText : Text := "[\\s\\S]".toList

namespace ClassStyle

/-- The case variants of a range that have to be written after it. -/
def variantsOfRange (s : ClassStyle) (a b : Char) : Except Error (List (Char × Char)) := do
  if b < a || widestExpansion < b.toNat - a.toNat then
    approximate s.strict .caselessRange
    return []
  return rangeVariants a b

/-- A range inside brackets; a range of one character is that character. -/
def rangeText (s : ClassStyle) : Char × Char → Text
  | (a, b) =>
    if a = b then escapeInClass s.v a else escapeInClass s.v a ++ '-' :: escapeInClass s.v b

/-- An item inside brackets. Classes and intersections do not go inside. -/
def bracketItem (s : ClassStyle) : ClassItem → Except Error Text
  | .char c =>
    return escapeInClass s.v c
      ++ if s.expand then (caseVariants c).flatMap (escapeInClass s.v) else []
  | .range a b => do
    let variants ← if s.expand then s.variantsOfRange a b else pure []
    return escapeInClass s.v a ++ '-' :: escapeInClass s.v b ++ variants.flatMap s.rangeText
  | .property name negated => return propertyText name negated
  | .builtin kind negated => return builtinText kind negated
  | .nested _ | .intersection _ => return []

/-- The items of a class that go inside brackets. -/
def bracketText (s : ClassStyle) (items : List ClassItem) : Except Error Text := do
  return (← items.mapM s.bracketItem).flatten

end ClassStyle

/-- Whether an item goes inside brackets. -/
def isFlat : ClassItem → Bool
  | .nested _ | .intersection _ => false
  | _ => true

/-- Alternatives in a group; a single one needs no group. -/
def unionText : List Text → Text
  | [t] => t
  | ts => "(?:".toList ++ ['|'].intercalate ts ++ [')']

mutual

/-- A class as flat brackets and what stands around them. -/
def classText (s : ClassStyle) : CharClass → Except Error Text
  | .mk false [.nested inner] _ => classText s inner
  | .mk negated items _ => do
    let flat ← s.bracketText items
    if items.all isFlat then return '[' :: (if negated then ['^'] else []) ++ flat ++ [']']
    let others ← classParts s items
    let parts := if items.any isFlat then ('[' :: flat ++ [']']) :: others else others
    return if negated then "(?!".toList ++ unionText parts ++ ')' :: anyText else unionText parts

/-- The alternatives for the items of a class that do not go inside brackets. -/
def classParts (s : ClassStyle) : List ClassItem → Except Error (List Text)
  | [] => return []
  | .nested inner :: items => do
    let first ← classText s inner
    return first :: (← classParts s items)
  | .intersection [] :: items => classParts s items
  | .intersection (c :: cs) :: items => do
    let first ← operandsText s (c :: cs)
    return first :: (← classParts s items)
  | _ :: items => classParts s items

/-- The operands of an intersection: a character that all but the last look ahead for, then the
last. -/
def operandsText (s : ClassStyle) : List CharClass → Except Error Text
  | [] => return []
  | [c] => classText s c
  | c :: d :: cs => do
    let first ← classText s c
    return "(?=".toList ++ first ++ ')' :: (← operandsText s (d :: cs))

end

mutual

/-- The first property in a class, or in a class inside it, that changes under case folding. -/
def casedProperty? : CharClass → Option String
  | .mk _ items _ => casedPropertyIn items

/-- The first property in a list of items that changes under case folding. -/
def casedPropertyIn : List ClassItem → Option String
  | [] => none
  | .property name _ :: items =>
    if casedProperties.contains name then some name else casedPropertyIn items
  | .nested cls :: items => (casedProperty? cls).or (casedPropertyIn items)
  | _ :: items => casedPropertyIn items

end

/-- A class as a leaf of a pattern. A single property or shorthand needs no brackets. -/
def classLeaf (s : ClassStyle) (c : CharClass) : Except Error Text := do
  if s.expand then
    if let some name := casedProperty? c then approximate s.strict (.caselessProperty name)
  match c.items with
  | [.property name negated] => return propertyText name (negated != c.negated)
  | [.builtin kind negated] => return builtinText kind (negated != c.negated)
  | _ => classText s c

end Diglot.Emitted
