import Diglot.Core.Tree
import Diglot.Flags
import Diglot.Source.Tree
import Diglot.Unicode.Posix
import Diglot.Unicode.PropertyName

/-!
# Lowering character sets

Named sets and bracketed classes of a source pattern as classes of the host. A set that is a
complement stays a class inside the class, and any other is merged into the class around it.
-/

namespace Diglot.Core

/-- What the lowering of sets depends on. -/
structure SetOptions where
  flags : Flags
  /-- Whether approximations are refused. -/
  strict : Bool

/-- Refuses an approximation under strict accuracy. -/
def approximate (strict : Bool) (what : Approximation) : Except Error Unit :=
  if strict then .error (.unsupported (.inexact what)) else .ok ()

namespace SetOptions

/-- Whether a POSIX name has its ASCII meaning. -/
def posixIsAscii (o : SetOptions) : String → Bool
  | "digit" => o.flags.asciiDigit
  | "space" => o.flags.asciiSpace
  | "word" | "alnum" => o.flags.asciiWord
  | _ => false

end SetOptions

/-- The item for a part of a POSIX class. -/
def posixItem : Unicode.PosixPart → ClassItem
  | .range a b => if a = b then .char a else .range a b
  | .property name => .property name false

/-- The properties that make up the word characters. -/
def wordItems : List ClassItem :=
  ["L", "M", "N", "Pc"].map (.property · false)

/-- Lowers a POSIX bracket to a sign and items. -/
def lowerPosix (o : SetOptions) (name : String) (negated : Bool) :
    Except Error (Bool × List ClassItem) := do
  match Unicode.posixClass? (o.posixIsAscii name) name with
  | none => .error (.unsupported (.posixClass name))
  | some p =>
    if !p.exact then approximate o.strict (.posixClass name)
    return (p.negated != negated, p.parts.map posixItem)

/-- Lowers a named set to a sign and items. -/
def lowerSet (o : SetOptions) : Source.CharSet → Except Error (Bool × List ClassItem)
  | .digit negated =>
    return (false, [if o.flags.asciiDigit then .builtin .digit negated else .property "Nd" negated])
  | .word negated =>
    return if o.flags.asciiWord then (false, [.builtin .word negated]) else (negated, wordItems)
  | .space negated =>
    return if o.flags.asciiSpace then (negated, [.range '\t' '\r', .char ' '])
      else (false, [.property "White_Space" negated])
  | .hex negated => return (negated, [.range '0' '9', .range 'A' 'F', .range 'a' 'f'])
  | .property name negated =>
    return (false, [.property (String.ofList (Unicode.propertyExpression name.toList)) negated])
  | .posix name negated => lowerPosix o name negated
  | .notNewline => return (true, [.char '\n'])
  | .any => return (false, CharClass.any.items)

def ClassItem.isIntersection : ClassItem → Bool
  | intersection _ => true
  | _ => false

/-- The items that a class inside a class adds to it: its own items if it is a plain union, and else
itself. -/
def mergedItems (cls : CharClass) : List ClassItem :=
  if cls.negated || cls.items.any (·.isIntersection) then [.nested cls] else cls.items

mutual

/-- Lowers a bracketed class. -/
def lowerClass (o : SetOptions) (ignoreCase : Bool) : Source.CharClass → Except Error CharClass
  | .mk negated items => do
    return .mk negated (← lowerItems o ignoreCase items) ignoreCase

def lowerItems (o : SetOptions) (ignoreCase : Bool) :
    List Source.ClassItem → Except Error (List ClassItem)
  | [] => return []
  | i :: is => do
    let first ← lowerItem o ignoreCase i
    return first ++ (← lowerItems o ignoreCase is)

def lowerItem (o : SetOptions) (ignoreCase : Bool) :
    Source.ClassItem → Except Error (List ClassItem)
  | .char c => return [.char c]
  | .range a b => return [.range a b]
  | .set s => do
    let (negated, items) ← lowerSet o s
    return if negated then [.nested (.mk negated items ignoreCase)] else items
  | .nested cls => return mergedItems (← lowerClass o ignoreCase cls)
  | .intersection operands => return [.intersection (← lowerOperands o ignoreCase operands)]

def lowerOperands (o : SetOptions) (ignoreCase : Bool) :
    List Source.CharClass → Except Error (List CharClass)
  | [] => return []
  | c :: cs => do
    let first ← lowerClass o ignoreCase c
    return first :: (← lowerOperands o ignoreCase cs)

end

end Diglot.Core
