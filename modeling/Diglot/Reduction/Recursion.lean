import Diglot.Emitted.Balance
import Diglot.Reduction.Piece

/-!
# Unrolling recursion

A recursion marker stands for the region that it recurses into: the whole pattern, or the inside of
a group around the marker. The region is written inside itself as often as the marker says, and at
the bottom stands a class that matches nothing. Captures of the inner levels are hidden and are
reported under the captures that they copy.
-/

namespace Diglot.Reduction

open Emitted

/-- A class that matches nothing. -/
def neverClass : Text := "[^\\s\\S]".toList

/-- A token, with the capture that it opens. -/
structure NumberedToken where
  token : Token
  capture : Option Nat

/-- The tokens with the numbers of the captures that they open, `n` captures having been opened. -/
def numberTokens (n : Nat) : List Token → List NumberedToken
  | [] => []
  | t :: ts =>
    if t.captureName?.isSome then ⟨t, some (n + 1)⟩ :: numberTokens (n + 1) ts
    else ⟨t, none⟩ :: numberTokens n ts

/-- A pattern cut at the region that it recurses into and at the marker. -/
structure Recursion where
  before : List NumberedToken
  /-- The region up to the marker. -/
  head : List NumberedToken
  /-- The region after the marker. -/
  tail : List NumberedToken
  after : List NumberedToken
  depth : Nat

namespace Recursion

/-- The captures inside the region. -/
def captures (r : Recursion) : List Nat :=
  (r.head ++ r.tail).filterMap (·.capture)

/-- The pieces for tokens in the `copy`-th copy of the region. Copies have no names, and a reference
to a capture of the region means the one in the same copy. -/
def copyTokens (r : Recursion) (copy : Nat) (tokens : List NumberedToken) : List Piece :=
  tokens.map fun t =>
    match t.token.kind with
    | .captureOpen name =>
      .openCapture (.existing (t.capture.getD 0) copy) (if copy = 0 then name else none)
    | .backreference i => .backreference (.existing i (if r.captures.contains i then copy else 0))
    | _ => .text t.token.text

/-- The region from the `copy`-th copy inwards, with `below` levels inside it. -/
def level (r : Recursion) : Nat → Nat → List Piece
  | copy, 0 => r.copyTokens copy r.head ++ .text neverClass :: r.copyTokens copy r.tail
  | copy, below + 1 =>
    r.copyTokens copy r.head ++ .text "(?:".toList :: r.level (copy + 1) below
      ++ .text [')'] :: r.copyTokens copy r.tail
termination_by structural _ below => below

def pieces (r : Recursion) : List Piece :=
  r.copyTokens 0 r.before ++ r.level 0 (r.depth - 1) ++ r.copyTokens 0 r.after

/-- Where a copy of a capture is reported: where the capture is reported, or under the capture
itself if it is not hidden. -/
def destination? (l : CaptureLayout) (index : Nat) : Option Nat :=
  match l.destinationOf index with
  | some d => some d
  | none => if l.hidden.contains index then none else some index

/-- The layout with one copy of a capture hidden and reported. -/
def hideCopy (keys : List CaptureKey) (old l : CaptureLayout) (key : CaptureKey) : CaptureLayout :=
  match key, numberOf? keys key with
  | .existing index _, some i =>
    let l := l.hide i
    match (destination? old index).bind fun d => numberOf? keys (.existing d 0) with
    | some d => l.transfer d i
    | none => l
  | _, _ => l

/-- The copies of captures, copy by copy. -/
def copies (r : Recursion) : List CaptureKey :=
  (List.range' 1 (r.depth - 1)).flatMap fun copy => r.captures.map (.existing · copy)

def unroll (r : Recursion) (l : CaptureLayout) : Draft :=
  let order := keys r.pieces
  { text := render order r.pieces
    layout := r.copies.foldl (hideCopy order l) (carryOver order l) }

end Recursion

/-- Whether a token opens the group that a marker names. -/
def NumberedToken.opens (target : GroupName) (t : NumberedToken) : Bool :=
  match target with
  | .number n => t.capture == some n
  | .name s => t.token.captureName? == some (some s)

/-- The region of a marker at index `marker`, as the indices of its first token and of the token
after it. -/
def region (tokens : List Token) (marker : Nat) : Kind → Except Error (Nat × Nat)
  | .groupRecursion target _ =>
    match (numberTokens 0 tokens).findIdx? (·.opens target) with
    | none => .error (.malformed marker .undefinedRecursion)
    | some start =>
      match matchingClose tokens start with
      | none => .error (.malformed start .unclosedGroup)
      | some stop =>
        if start < marker && marker < stop then .ok (start + 1, stop)
        else .error (.malformed marker .markerOutsideGroup)
  | _ => .ok (0, tokens.length)

/-- The pattern cut at its marker. -/
def Recursion.of (tokens : List Token) (marker : Nat) (kind : Kind) : Except Error Recursion := do
  let (start, stop) ← region tokens marker kind
  if kind.depth < 1 then throw (.malformed marker .zeroDepth)
  let numbered := numberTokens 0 tokens
  return {
    before := numbered.take start
    head := (numbered.take marker).drop start
    tail := (numbered.take stop).drop (marker + 1)
    after := numbered.drop stop
    depth := kind.depth }

/-- Unrolls the recursion of a written pattern. A pattern without a marker stays as it is. -/
def unrollRecursion (p : Draft) : Except Error Draft := do
  let tokens ← scan p.text
  match tokens.zipIdx.filter (·.1.kind.isMarker) with
  | [] => return p
  | [(t, marker)] => return (← Recursion.of tokens marker t.kind).unroll p.layout
  | _ => throw (.unsupported .severalRecursions)

end Diglot.Reduction
