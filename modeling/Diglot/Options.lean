import Diglot.Flags

/-!
# Options

What a caller can ask of a conversion, and the settings that result when it has been checked.
-/

namespace Diglot

/-- The target with a name, in capitals or not; none for the automatic choice. -/
def Target.ofName (name : String) : Except Error (Option Target) :=
  match name.map Char.toLower with
  | "auto" => .ok none
  | "es2018" => .ok (some .es2018)
  | "es2024" => .ok (some .es2024)
  | "es2025" => .ok (some .es2025)
  | _ => .error (.unknownTarget name)

/-- Variants of the rules of the source dialect. -/
structure Rules where
  /-- Backreferences to groups that do not exist never match, instead of being errors. -/
  allowOrphans : Bool := false
  /-- `\b` and `\B` look for ASCII word characters. -/
  asciiWordBoundaries : Bool := false
  /-- Groups without a name capture even if others have one. -/
  captureGroup : Bool := false
  recursionLimit : Nat := 20
  /-- `^` and `$` match at the ends of the text only. -/
  singleline : Bool := false
  deriving DecidableEq, Repr

/-- What a caller can ask of a conversion. -/
structure Options where
  /-- Whether approximations are refused. -/
  strict : Bool := false
  /-- Whether patterns that need the emulation wrapper are refused. -/
  avoidEmulation : Bool := false
  flags : String := ""
  global : Bool := false
  hasIndices : Bool := false
  /-- Patterns of at least this length are compiled when they are first used. -/
  lazyCompileLength : Option Nat := none
  rules : Rules := {}
  /-- The target; none leaves the choice to what the host can do. -/
  target : Option Target := none
  /-- Whether groups that are not needed are kept. -/
  verbose : Bool := false
  deriving DecidableEq, Repr

/-- Options that have been checked. -/
structure Settings where
  strict : Bool
  avoidEmulation : Bool
  flags : Flags
  global : Bool
  hasIndices : Bool
  lazyCompileLength : Option Nat
  rules : Rules
  target : Target
  verbose : Bool
  deriving DecidableEq, Repr

def leastRecursionLimit : Nat := 2

def greatestRecursionLimit : Nat := 100

/-- What the host engine of this library can do. -/
def hostFeatures : HostFeatures := ⟨true, true⟩

/-- Checks options. Of several faults, the conflict comes before the limit and the limit before the
flags. -/
def Options.normalize (o : Options) : Except Error Settings := do
  if o.avoidEmulation && o.lazyCompileLength.isSome then throw .lazyWithoutWrapper
  let limit := o.rules.recursionLimit
  if limit < leastRecursionLimit || greatestRecursionLimit < limit then
    throw (.recursionLimit leastRecursionLimit greatestRecursionLimit limit)
  let flags ← Flags.ofString o.flags
  return {
    strict := o.strict
    avoidEmulation := o.avoidEmulation
    flags
    global := o.global
    hasIndices := o.hasIndices
    lazyCompileLength := o.lazyCompileLength
    rules := o.rules
    target := o.target.getD hostFeatures.newestTarget
    verbose := o.verbose }

end Diglot
