import Diglot.Source.Cursor
import Diglot.Source.Token
import Diglot.Text.Digits

/-!
# Escapes

The escapes that mean the same inside and outside bracketed classes: control characters, code points
and named sets. Errors are placed at the backslash.
-/

namespace Diglot.Source

open Text Reader

/-- What an escape stands for. -/
inductive Escaped where
  | char (c : Char)
  | set (s : CharSet)
  deriving DecidableEq, Repr

namespace Escape

/-- The set behind `\p` and `\P`: a name in braces, with `^` to negate it. -/
def property (start : Nat) (upper : Bool) : Reader CharSet := do
  if !(← eat '\x7b') then failAt start .invalidProperty
  let caret ← eat '^'
  let name ← takeWhile (· != '\x7d')
  if !(← eat '\x7d') then failAt start .unclosedProperty
  if name.isEmpty then failAt start .emptyProperty
  return .property (String.ofList name) (upper != caret)

/-- A code point in braces. A character that is no digit is taken before the reader fails. -/
def braced (start radix : Nat) : Reader Char := do
  skip 1
  let digits ← takeWhile (isDigit radix)
  if (← char?) != some '\x7d' then failAt start .invalidCodePointEscape
  match (number? radix (Nat.pow 2 32) digits).bind charOf? with
  | some c => return c
  | none => failAt start .invalidCodePoint

/-- The character behind `\x`: a code point in braces or at most two hexadecimal digits. -/
def hex (start : Nat) : Reader Char := do
  if (← peek?) = some '\x7b' then braced start 16
  else
    let digits ← takeAtMost 2 (isDigit 16)
    return Char.ofNat (ofDigits 16 digits)

/-- The number in exactly `count` hexadecimal digits, after `value`. -/
def fixedHex (start : Nat) : Nat → Nat → Reader Nat
  | 0, value => return value
  | count + 1, value => do
    match (← char?).bind digitValue with
    | some d =>
      if d < 16 then fixedHex start count (value * 16 + d) else failAt start .invalidUnicodeEscape
    | none => failAt start .invalidUnicodeEscape

/-- The character behind `\u`: four hexadecimal digits. -/
def unicode (start : Nat) : Reader Char := do
  match charOf? (← fixedHex start 4 0) with
  | some c => return c
  | none => failAt start .invalidCodePoint

/-- The character behind `\0`: at most two more octal digits. -/
def octal : Reader Char := do
  let digits ← takeAtMost 2 (isDigit 8)
  return Char.ofNat (ofDigits 8 digits)

/-- The character behind `\c`: the code of the next character modulo 32. -/
def control (start : Nat) : Reader Char := do
  match ← char? with
  | some c => return Char.ofNat (c.toNat % 32)
  | none => failAt start .incompleteControl

/-- The escape whose backslash stands at `start` and has been taken. -/
def shared (start : Nat) : Reader Escaped := do
  match ← char? with
  | none => failAt start .trailingBackslash
  | some 't' => return .char '\t'
  | some 'n' => return .char '\n'
  | some 'r' => return .char '\r'
  | some 'f' => return .char '\x0c'
  | some 'v' => return .char '\x0b'
  | some 'a' => return .char '\x07'
  | some 'e' => return .char '\x1b'
  | some 'd' => return .set (.digit false)
  | some 'D' => return .set (.digit true)
  | some 'w' => return .set (.word false)
  | some 'W' => return .set (.word true)
  | some 's' => return .set (.space false)
  | some 'S' => return .set (.space true)
  | some 'h' => return .set (.hex false)
  | some 'H' => return .set (.hex true)
  | some 'N' => return .set .notNewline
  | some 'O' => return .set .any
  | some 'p' => return .set (← property start false)
  | some 'P' => return .set (← property start true)
  | some 'x' => return .char (← hex start)
  | some 'u' => return .char (← unicode start)
  | some 'o' =>
    if (← peek?) = some '\x7b' then return .char (← braced start 8) else return .char 'o'
  | some '0' => return .char (← octal)
  | some 'c' => return .char (← control start)
  | some c => return .char c

end Escape

end Diglot.Source
