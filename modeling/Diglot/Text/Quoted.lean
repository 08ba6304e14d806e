import Diglot.Unicode.Kind

/-!
# Quoted characters and texts

A character or a text between quotes, with escapes for what does not show in print. Only the kind of
quote that stands around is escaped.
-/

namespace Diglot.Text

/-- A number in lower case hexadecimal digits. -/
def hexText (n : Nat) : String :=
  String.ofList (Nat.toDigits 16 n)

/-- A character as it is written between quotes `quote`. -/
def escapeQuoted (quote c : Char) : String :=
  if c = '\x00' then "\\0"
  else if c = '\t' then "\\t"
  else if c = '\r' then "\\r"
  else if c = '\n' then "\\n"
  else if c = '\\' then "\\\\"
  else if c = quote then "\\" ++ c.toString
  else if Unicode.isExtendingMark c || !Unicode.isPrintable c then
    "\\u\x7b" ++ hexText c.toNat ++ "\x7d"
  else c.toString

def quoteChar (c : Char) : String :=
  "'" ++ escapeQuoted '\'' c ++ "'"

def quoteText (s : String) : String :=
  "\"" ++ String.join (s.toList.map (escapeQuoted '"')) ++ "\""

end Diglot.Text
