import Diglot.Error
import Diglot.Source.Groups

/-!
# Resolving references

Once the groups are numbered, every reference gets the numbers of the groups it may mean. Numbers
may not be used in a pattern in which only named groups capture.
-/

namespace Diglot.Source

/-- What references are resolved against. -/
structure Resolver where
  groups : Groups
  /-- Only named groups capture, so numbers are not allowed. -/
  namesOnly : Bool
  /-- A backreference to a group that does not exist is allowed, and never matches. -/
  allowOrphans : Bool

namespace Resolver

/-- The groups that a backreference means when `opened` groups opened before it. -/
def backreference (r : Resolver) (place opened : Nat) : Reference → Except Error (List Nat)
  | .number 0 => .error (.malformed place (.invalidReference .backreference))
  | .number n =>
    if r.namesOnly then .error (.malformed place .numberedReference)
    else if n ≤ r.groups.count then .ok [n]
    else if r.allowOrphans then .ok []
    else .error (.malformed place (.undefinedGroup .backreference n))
  | .relative k =>
    if r.namesOnly then .error (.malformed place .numberedReference)
    else
      match resolveRelative k opened with
      | some n => .ok [n]
      | none => .error (.malformed place (.invalidRelative .backreference))
  | .name s =>
    match r.groups.numbersNamed s with
    | [] => .error (.malformed place (.undefinedName s))
    | ns => .ok ns

/-- The group that a subroutine call means when `opened` groups opened before it. -/
def subroutine (r : Resolver) (place opened : Nat) : Reference → Except Error Nat
  | .number 0 => .ok 0
  | .number n =>
    if r.namesOnly then .error (.malformed place .numberedReference)
    else if n ≤ r.groups.count then .ok n
    else .error (.malformed place (.undefinedGroup .subroutine n))
  | .relative k =>
    if r.namesOnly then .error (.malformed place .numberedReference)
    else
      match resolveRelative k opened with
      | some n => .ok n
      | none => .error (.malformed place (.invalidRelative .subroutine))
  | .name s =>
    match r.groups.numbersNamed s with
    | [] => .error (.malformed place (.undefinedName s))
    | [n] => .ok n
    | _ => .error (.malformed place (.duplicatedName s))

end Resolver

namespace Node

mutual

/-- Fills in the targets of all references, in pattern order. `opened` groups opened before the
node, and the second result counts those that opened before its end. -/
def resolve (r : Resolver) (opened : Nat) : Node → Except Error (Node × Nat)
  | group (.capture n name) body => do
    let (body, opened) ← body.resolve r (opened + 1)
    return (group (.capture n name) body, opened)
  | group kind body => do
    let (body, opened) ← body.resolve r opened
    return (group kind body, opened)
  | sequence ns => do
    let (ns, opened) ← resolveAll r opened ns
    return (sequence ns, opened)
  | alternation ns => do
    let (ns, opened) ← resolveAll r opened ns
    return (alternation ns, opened)
  | repeated body q => do
    let (body, opened) ← body.resolve r opened
    return (repeated body q, opened)
  | absent body => do
    let (body, opened) ← body.resolve r opened
    return (absent body, opened)
  | backreference place ref _ =>
    return (backreference place ref (← r.backreference place opened ref), opened)
  | subroutine place ref _ =>
    return (subroutine place ref (← r.subroutine place opened ref), opened)
  | n => return (n, opened)

def resolveAll (r : Resolver) (opened : Nat) : List Node → Except Error (List Node × Nat)
  | [] => return ([], opened)
  | n :: ns => do
    let (n, opened) ← n.resolve r opened
    let (ns, opened) ← resolveAll r opened ns
    return (n :: ns, opened)

end

end Node

end Diglot.Source
