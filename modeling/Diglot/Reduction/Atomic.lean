import Diglot.Emitted.Balance
import Diglot.Reduction.Piece

/-!
# Atomic groups

An atomic group becomes a look ahead that captures what the group matches, followed by a reference
to that capture. The host does not go back into a look ahead, so what was captured first is what is
matched. The captures that are added shift the numbers of those after them, and are hidden.
-/

namespace Diglot.Reduction

open Emitted

/-- How far the tokens of a pattern have been taken apart. -/
structure Unfolding where
  /-- How many captures of the pattern have been opened. -/
  captures : Nat := 0
  /-- How many captures have been added. -/
  injected : Nat := 0
  /-- The open groups from the inside out: an atomic group has its added capture. -/
  stack : List (Option Nat) := []

/-- The pieces for the tokens at index `i` and after it. -/
def atomicPieces (size : Nat) : Unfolding → Nat → List Token → Except Error (List Piece)
  | u, _, [] =>
    if u.stack.isEmpty then .ok [] else .error (.malformed size .unclosedGroup)
  | u, i, t :: ts =>
    match t.kind with
    | .atomicOpen => do
      let rest ← atomicPieces size
        { u with injected := u.injected + 1, stack := some u.injected :: u.stack } (i + 1) ts
      return .text "(?:(?=".toList :: .openCapture (.injected u.injected) none :: rest
    | .captureOpen name => do
      let rest ← atomicPieces size
        { u with captures := u.captures + 1, stack := none :: u.stack } (i + 1) ts
      return .openCapture (.existing (u.captures + 1) 0) name :: rest
    | .groupOpen | .lookOpen => do
      let rest ← atomicPieces size { u with stack := none :: u.stack } (i + 1) ts
      return .text t.text :: rest
    | .close =>
      match u.stack with
      | [] => .error (.malformed i .unmatchedClose)
      | some n :: stack => do
        let rest ← atomicPieces size { u with stack } (i + 1) ts
        return .text "))".toList :: .backreference (.injected n) :: .text [')'] :: rest
      | none :: stack => do
        let rest ← atomicPieces size { u with stack } (i + 1) ts
        return .text t.text :: rest
    | .backreference n => do
      let rest ← atomicPieces size u (i + 1) ts
      return .backreference (.existing n 0) :: rest
    | _ => do
      let rest ← atomicPieces size u (i + 1) ts
      return .text t.text :: rest

def CaptureKey.isInjected : CaptureKey → Bool
  | injected _ => true
  | existing _ _ => false

/-- Writes the atomic groups of a pattern with look aheads. -/
def unfoldAtomic (p : Draft) : Except Error Draft := do
  let tokens ← scan p.text
  if !tokens.any (·.kind == .atomicOpen) then return p
  let pieces ← atomicPieces p.text.length {} 0 tokens
  let order := keys pieces
  let added := (order.zipIdx.filter (·.1.isInjected)).map (·.2 + 1)
  return {
    text := render order pieces
    layout := added.foldl (·.hide ·) (carryOver order p.layout) }

end Diglot.Reduction
