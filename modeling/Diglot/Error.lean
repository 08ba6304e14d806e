import Diglot.Target

/-!
# Errors

Every way in which a pattern or an option can be refused is a cause of its own. The wording of all
of them is in `Error.message` and the functions it calls.
-/

namespace Diglot

/-- The two constructs that refer to a group. -/
inductive ReferenceKind where
  | backreference
  | subroutine
  deriving DecidableEq, Repr

def ReferenceKind.word : ReferenceKind → String
  | backreference => "backreference"
  | subroutine => "subroutine"

/-- What is wrong with a pattern text that cannot be read. -/
inductive Fault where
  | unclosedComment
  | invalidGroupSyntax
  | groupNameCharacter
  | groupName (name : String)
  | unclosedFlags
  | unknownInlineFlag (c : Char)
  | trailingBackslash
  | invalidReference (kind : ReferenceKind)
  | unclosedReference (kind : ReferenceKind)
  | referenceName (kind : ReferenceKind) (name : String)
  | invalidProperty
  | unclosedProperty
  | emptyProperty
  | invalidUnicodeEscape
  | invalidCodePointEscape
  | invalidCodePoint
  | incompleteControl
  | unmatchedClose
  | unclosedGroup
  | nothingToRepeat
  | cannotRepeat
  | unclosedClass
  | emptyRange
  | invalidRangeEnd
  | numberedReference
  | undefinedGroup (kind : ReferenceKind) (number : Nat)
  | invalidRelative (kind : ReferenceKind)
  | undefinedName (name : String)
  | duplicatedName (name : String)
  | unterminatedSequence
  | unterminatedClass
  | invalidGroup
  | unterminatedMarker
  | missingDepth
  | invalidDepth
  | zeroDepth
  | undefinedRecursion
  | markerOutsideGroup
  | quantifierWithoutTarget
  deriving DecidableEq, Repr

def Fault.message : Fault → String
  | unclosedComment => "unclosed comment group"
  | invalidGroupSyntax => "invalid group syntax"
  | groupNameCharacter => "invalid group name"
  | groupName name => s!"invalid group name '{name}'"
  | unclosedFlags => "unclosed flag group"
  | unknownInlineFlag c => s!"invalid flag '{c}'"
  | trailingBackslash => "trailing backslash"
  | invalidReference kind => s!"invalid {kind.word}"
  | unclosedReference kind => s!"unclosed {kind.word}"
  | referenceName kind name => s!"invalid {kind.word} name '{name}'"
  | invalidProperty => "invalid property escape"
  | unclosedProperty => "unclosed property escape"
  | emptyProperty => "empty property name"
  | invalidUnicodeEscape => "invalid unicode escape"
  | invalidCodePointEscape => "invalid code point escape"
  | invalidCodePoint => "invalid code point"
  | incompleteControl => "incomplete control escape"
  | unmatchedClose => "unmatched ')'"
  | unclosedGroup => "unclosed group"
  | nothingToRepeat => "target of repeat operator is not specified"
  | cannotRepeat => "target of repeat operator is invalid"
  | unclosedClass => "unclosed character class"
  | emptyRange => "empty range in character class"
  | invalidRangeEnd => "invalid end of range in character class"
  | numberedReference => "numbered reference not allowed when named groups are used"
  | undefinedGroup .backreference n => s!"backreference to undefined group {n}"
  | undefinedGroup .subroutine n => s!"subroutine call to undefined group {n}"
  | invalidRelative kind => s!"invalid relative {kind.word}"
  | undefinedName name => s!"undefined group name '{name}'"
  | duplicatedName name => s!"subroutine call to duplicated name '{name}'"
  | unterminatedSequence => "unterminated sequence"
  | unterminatedClass => "unterminated character class"
  | invalidGroup => "invalid group"
  | unterminatedMarker => "unterminated recursion marker"
  | missingDepth => "subroutine without recursion depth"
  | invalidDepth => "invalid recursion depth"
  | zeroDepth => "recursion depth must be positive"
  | undefinedRecursion => "recursion into an undefined group"
  | markerOutsideGroup => "recursion marker outside its group"
  | quantifierWithoutTarget => "quantifier without a target"

/-- A construct that the host can only come close to. Strict accuracy refuses it. -/
inductive Approximation where
  | duplicatedNameReference
  | keep
  | grapheme
  | recursion
  | posixClass (name : String)
  | forwardReference
  | referenceInsideGroup
  | calledGroupReference
  | caselessProperty (name : String)
  | caselessRange
  deriving DecidableEq, Repr

def Approximation.words : Approximation → String
  | duplicatedNameReference => "backreference to a duplicated group name"
  | keep => "\\K"
  | grapheme => "\\X"
  | recursion => "recursion"
  | posixClass name => s!"POSIX class [:{name}:]"
  | forwardReference => "forward backreference"
  | referenceInsideGroup => "backreference inside its own group"
  | calledGroupReference => "backreference to a group called as a subroutine"
  | caselessProperty name => s!"case-insensitive property {name} in a case-sensitive pattern"
  | caselessRange => "case-insensitive range in a case-sensitive pattern"

/-- A construct that cannot be carried over to the host. -/
inductive Feature where
  | conditionalGroup
  | recursionLevel (kind : ReferenceKind)
  | forwardRelative (kind : ReferenceKind)
  | inexact (what : Approximation)
  | nestedKeep
  | absentFunction
  | innerSearchStart
  | leadingSearchStart
  | posixClass (name : String)
  | recursionThroughCall
  | severalRecursions
  | mutualRecursion
  | unknownGroup (number : Nat)
  | recursionInto (number : Nat)
  | emulationWrapper
  deriving DecidableEq, Repr

def Feature.words : Feature → String
  | conditionalGroup => "conditional groups"
  | recursionLevel kind => s!"{kind.word} with recursion level"
  | forwardRelative kind => s!"forward relative {kind.word}"
  | inexact what => s!"{what.words} cannot be emulated exactly"
  | nestedKeep => "\\K is only supported at the top level"
  | absentFunction => "absent functions"
  | innerSearchStart => "\\G is only supported at the start of the pattern"
  | leadingSearchStart => "leading \\G requires the emulation wrapper"
  | posixClass name => s!"POSIX class [:{name}:]"
  | recursionThroughCall => "recursion through a subroutine call"
  | severalRecursions => "more than one recursive reference"
  | mutualRecursion => "mutually recursive subroutines"
  | unknownGroup n => s!"subroutine call to unknown group {n}"
  | recursionInto n => s!"recursion into group {n}"
  | emulationWrapper => "pattern requires the emulation wrapper"

/-- Why a pattern or an option was refused. -/
inductive Error where
  /-- A pattern text cannot be read; the position counts characters or tokens. -/
  | malformed (position : Nat) (fault : Fault)
  /-- The pattern uses something that cannot be carried over. -/
  | unsupported (feature : Feature)
  /-- A case-insensitive backreference needs modifier groups that the target lacks. -/
  | caselessReference (target : Target)
  /-- Compilation cannot be put off without the emulation wrapper. -/
  | lazyWithoutWrapper
  | unknownFlag (c : Char)
  | unknownTarget (name : String)
  | recursionLimit (low high got : Nat)
  /-- The host engine does not accept the pattern. -/
  | rejected
  deriving DecidableEq, Repr

/-- The kinds of errors that callers tell apart. -/
inductive ErrorKind where
  | malformed
  | unsupported
  | target
  | conflict
  | option
  | rejected
  deriving DecidableEq, Repr

namespace Error

def kind : Error → ErrorKind
  | malformed _ _ => .malformed
  | unsupported _ => .unsupported
  | caselessReference _ => .target
  | lazyWithoutWrapper => .conflict
  | unknownFlag _ | unknownTarget _ | recursionLimit _ _ _ => .option
  | rejected => .rejected

def message : Error → String
  | malformed position fault => s!"syntax error at position {position}: {fault.message}"
  | unsupported feature => s!"unsupported feature: {feature.words}"
  | caselessReference target =>
    "case-insensitive backreference in a case-sensitive pattern requires a target above "
      ++ target.name
  | lazyWithoutWrapper => "configuration conflict: lazy compilation requires the emulation wrapper"
  | unknownFlag c => s!"invalid option: unknown flag '{c}'"
  | unknownTarget name => s!"invalid option: unknown target '{name}'"
  | recursionLimit low high got =>
    s!"invalid option: recursion limit must be between {low} and {high}, got {got}"
  | rejected => "compilation error: pattern rejected"

end Error

end Diglot
