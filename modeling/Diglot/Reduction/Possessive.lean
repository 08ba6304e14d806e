import Diglot.Emitted.Balance
import Diglot.Reduction.Piece

/-!
# Possessive quantifiers

A part with a possessive quantifier becomes an atomic group around the part with a greedy one.
Captures keep their numbers.
-/

namespace Diglot.Reduction

open Emitted

def isPossessive (t : Token) : Bool :=
  t.kind = .quantifier true

/-- The index at which the target of the quantifier at index `i` begins. -/
def targetStart (tokens : List Token) : Nat → Except Error Nat
  | 0 => .error (.malformed 0 .quantifierWithoutTarget)
  | i + 1 =>
    match tokens[i]? with
    | some t =>
      if t.kind = .close then
        match matchingOpen tokens i with
        | some start => .ok start
        | none => .error (.malformed (i + 1) .quantifierWithoutTarget)
      else .ok i
    | none => .error (.malformed (i + 1) .quantifierWithoutTarget)

/-- The indices at which the targets of the possessive quantifiers begin. -/
def targetStarts (tokens : List Token) : Except Error (List Nat) :=
  (tokens.zipIdx.filter (isPossessive ·.1)).mapM fun (_, i) => targetStart tokens i

/-- The text of a token: an atomic group opens before it for each target that begins there, and
closes after a possessive quantifier, which loses its sign. -/
def possessiveText (starts : List Nat) (t : Token) (i : Nat) : Text :=
  (List.replicate (starts.count i) "(?>".toList).flatten
    ++ if isPossessive t then t.text.dropLast ++ [')'] else t.text

/-- Writes the possessive quantifiers of a pattern as atomic groups. -/
def groupPossessive (p : Draft) : Except Error Draft := do
  let tokens ← scan p.text
  let starts ← targetStarts tokens
  if starts.isEmpty then return p
  return { p with text := tokens.zipIdx.flatMap fun (t, i) => possessiveText starts t i }

end Diglot.Reduction
