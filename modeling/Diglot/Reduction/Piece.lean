import Diglot.CaptureLayout
import Diglot.Emitted.Escape

/-!
# Pieces of a reduced pattern

A reduction puts a pattern together from pieces in which captures have identities instead of
numbers. Numbers are given at the end, in the order in which the captures open.
-/

namespace Diglot.Reduction

open Emitted (Text)

/-- A written pattern, with or without extensions, and the layout of its captures. -/
structure Draft where
  text : Text
  layout : CaptureLayout
  deriving DecidableEq, Repr

/-- The identity of a capture. -/
inductive CaptureKey where
  /-- Capture `index` of the pattern before the reduction, copied the `copy`-th time; 0 is
  itself. -/
  | existing (index copy : Nat)
  /-- The `n`-th capture that the reduction adds. -/
  | injected (n : Nat)
  deriving DecidableEq, Repr

inductive Piece where
  | text (t : Text)
  | openCapture (key : CaptureKey) (name : Option (List Char))
  | backreference (key : CaptureKey)
  deriving DecidableEq, Repr

def Piece.key? : Piece → Option CaptureKey
  | openCapture key _ => some key
  | _ => none

def Piece.startsWithDigit : Piece → Bool
  | text t => t.head?.any Char.isDigit
  | _ => false

/-- The captures of a reduced pattern, in opening order. -/
def keys (pieces : List Piece) : List CaptureKey :=
  pieces.filterMap (·.key?)

def numberOf? (keys : List CaptureKey) (key : CaptureKey) : Option Nat :=
  (keys.idxOf? key).map (· + 1)

/-- The number of the capture that a reference means. If there is no such copy of a capture, the
capture itself is meant. -/
def referenceNumber (keys : List CaptureKey) (key : CaptureKey) : Nat :=
  match key with
  | .existing index _ =>
    ((numberOf? keys key).or (numberOf? keys (.existing index 0))).getD 0
  | .injected _ => (numberOf? keys key).getD 0

/-- The text of the pieces, with captures numbered by `keys`. A digit after a reference is kept
apart from its number. -/
def render (keys : List CaptureKey) : List Piece → Text
  | [] => []
  | .text t :: rest => t ++ render keys rest
  | .openCapture _ (some name) :: rest => "(?<".toList ++ name ++ '>' :: render keys rest
  | .openCapture _ none :: rest => '(' :: render keys rest
  | .backreference key :: rest =>
    '\\' :: (toString (referenceNumber keys key)).toList
      ++ (if rest.head?.any (·.startsWithDigit) then "(?:)".toList else [])
      ++ render keys rest

/-- The layout after a reduction, for the captures that were there before. -/
def carryOver (keys : List CaptureKey) (l : CaptureLayout) : CaptureLayout :=
  l.renumber fun i => numberOf? keys (.existing i 0)

end Diglot.Reduction
