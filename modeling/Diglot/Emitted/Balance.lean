import Diglot.Emitted.Scanner

/-!
# Balanced groups

Where groups of a written pattern open and close, which texts a quantifier can follow directly, and
the captures of a written pattern.
-/

namespace Diglot.Emitted

/-- Where the group that is open closes, counting tokens from `i`, with `depth` groups open. -/
def closeFrom : Nat → Nat → List Token → Option Nat
  | _, _, [] => none
  | i, depth, t :: ts =>
    if t.kind.isOpen then closeFrom (i + 1) (depth + 1) ts
    else if t.kind = .close then
      match depth with
      | 0 => none
      | 1 => some i
      | depth + 2 => closeFrom (i + 1) (depth + 1) ts
    else closeFrom (i + 1) depth ts

/-- The index of the token that closes the group which opens at an index. -/
def matchingClose (tokens : List Token) (start : Nat) : Option Nat :=
  closeFrom start 0 (tokens.drop start)

/-- Where the group that closes has opened, going back over tokens before index `i`, the last one
first, with `depth` groups still to open. -/
def openFrom : Nat → Nat → List Token → Option Nat
  | _, _, [] => none
  | i, depth, t :: ts =>
    if t.kind = .close then openFrom (i - 1) (depth + 1) ts
    else if t.kind.isOpen then
      match depth with
      | 0 => none
      | 1 => some (i - 1)
      | depth + 2 => openFrom (i - 1) (depth + 1) ts
    else openFrom (i - 1) depth ts

/-- The index of the token that opens the group which closes at an index. -/
def matchingOpen (tokens : List Token) (stop : Nat) : Option Nat :=
  openFrom (stop + 1) 0 (tokens.take (stop + 1)).reverse

/-- Whether tokens are one thing that a quantifier can follow: a single character, reference or
marker, or a group that is no look around and closes at the end. -/
def isAtomic : List Token → Bool
  | [] => false
  | [t] =>
    match t.kind with
    | .atom | .backreference _ | .recursion _ | .groupRecursion _ _ => true
    | _ => false
  | t :: ts =>
    t.kind.isOpen && t.kind != .lookOpen && matchingClose (t :: ts) 0 == some ts.length

/-- Whether a quantifier can follow a text directly. A text that cannot be scanned is not such a
text. -/
def isSingleAtom (text : List Char) : Bool :=
  match scan text with
  | .ok tokens => isAtomic tokens
  | .error _ => false

/-- The name that a capturing token gives, if it opens a capture. -/
def Token.captureName? (t : Token) : Option (Option (List Char)) :=
  match t.kind with
  | .captureOpen name => some name
  | _ => none

/-- The names of the captures of a written pattern, in opening order. -/
def captureNames (text : List Char) : Except Error (List (Option (List Char))) := do
  return (← scan text).filterMap (·.captureName?)

end Diglot.Emitted
