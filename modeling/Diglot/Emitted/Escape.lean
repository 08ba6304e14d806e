import Diglot.Unicode.Kind

/-!
# Escapes in written patterns

How a character is written so that the host takes it as itself.
-/

namespace Diglot.Emitted

/-- A text of a written pattern. -/
abbrev Text := List Char

/-- A code point in capital hexadecimal digits, at least `width` of them. -/
def hexDigits (width n : Nat) : Text :=
  let digits := (Nat.toDigits 16 n).map Char.toUpper
  List.replicate (width - digits.length) '0' ++ digits

/-- A character that is special nowhere: control characters and blanks other than the space are
escaped. -/
def escapePlain (c : Char) : Text :=
  if c = '\n' then "\\n".toList
  else if c = '\r' then "\\r".toList
  else if c = '\t' then "\\t".toList
  else if c = '\x0b' then "\\v".toList
  else if c = '\x0c' then "\\f".toList
  else if Unicode.isControl c || (Unicode.isWhitespace c && c != ' ') then
    if c.toNat ≤ 0xFF then '\\' :: 'x' :: hexDigits 2 c.toNat
    else "\\u\x7b".toList ++ hexDigits 1 c.toNat ++ ['\x7d']
  else [c]

/-- The characters that are special outside classes. -/
def specials : List Char :=
  ['^', '$', '\\', '.', '*', '+', '?', '(', ')', '[', ']', '\x7b', '\x7d', '|', '/']

/-- A character outside classes. -/
def escapeChar (c : Char) : Text :=
  if specials.contains c then ['\\', c] else escapePlain c

/-- The characters that are special in every class. -/
def classSpecials : List Char :=
  ['\\', ']', '[', '^', '-']

/-- The characters that are special in classes under flag `v` as well. -/
def setSpecials : List Char :=
  ['(', ')', '\x7b', '\x7d', '/', '|', '$', '.', '*', '+', '?', '&', '!', '#', '%', ',', ':', ';',
    '<', '=', '>', '@', '\x60', '~']

/-- A character inside a class; `v` says whether flag `v` is in force. -/
def escapeInClass (v : Bool) (c : Char) : Text :=
  if classSpecials.contains c || v && setSpecials.contains c then ['\\', c] else escapePlain c

end Diglot.Emitted
