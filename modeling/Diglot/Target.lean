/-!
# Targets

A target is an edition of the host dialect. Editions are ordered, and each has every feature of the
ones before it.
-/

namespace Diglot

/-- The editions of the host dialect that a pattern can be written for. -/
inductive Target where
  /-- Flag `u`, lookbehind, named groups and property escapes. -/
  | es2018
  /-- Adds flag `v` with its class syntax. -/
  | es2024
  /-- Adds modifier groups such as `(?i:…)`. -/
  | es2025
  deriving DecidableEq, Repr

namespace Target

def name : Target → String
  | es2018 => "ES2018"
  | es2024 => "ES2024"
  | es2025 => "ES2025"

def hasUnicodeSets : Target → Bool
  | es2018 => false
  | es2024 | es2025 => true

def hasFlagGroups : Target → Bool
  | es2018 | es2024 => false
  | es2025 => true

end Target

/-- What a host engine turned out to be capable of. -/
structure HostFeatures where
  unicodeSets : Bool
  flagGroups : Bool
  deriving DecidableEq, Repr

/-- The newest edition all of whose features the host has. -/
def HostFeatures.newestTarget (f : HostFeatures) : Target :=
  if f.flagGroups && f.unicodeSets then .es2025
  else if f.unicodeSets then .es2024
  else .es2018

/-- The newest target needs no feature that the host lacks. -/
theorem HostFeatures.newestTarget_supported (f : HostFeatures) :
    (f.newestTarget.hasUnicodeSets → f.unicodeSets) ∧
      (f.newestTarget.hasFlagGroups → f.flagGroups) := by
  rcases f with ⟨_ | _, _ | _⟩ <;> decide

end Diglot
