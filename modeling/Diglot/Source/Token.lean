import Diglot.Source.Element

/-!
# Source tokens

The words of the source dialect. A bracketed class has words of its own.
-/

namespace Diglot.Source

/-- The ways in which a group opens. -/
inductive GroupOpen where
  /-- `(` -/
  | capture
  /-- `(?<name>` or `(?'name'` -/
  | named (name : String)
  /-- `(?:` -/
  | plain
  /-- `(?>` -/
  | atomic
  /-- `(?=`, `(?!`, `(?<=` or `(?<!` -/
  | look (l : Look)
  /-- `(?imx-imx:` -/
  | flags (change : FlagChange)
  /-- `(?~` -/
  | absent
  deriving DecidableEq, Repr

/-- A word outside bracketed classes. -/
inductive Token where
  /-- `|` -/
  | pipe
  /-- `)` -/
  | close
  /-- `[` or `[^` -/
  | classOpen (negated : Bool)
  /-- `.` -/
  | dot
  | groupOpen (how : GroupOpen)
  /-- `(?imx-imx)`, which governs the rest of the enclosing group -/
  | directive (change : FlagChange)
  | quantifier (q : Quantifier)
  | literal (c : Char)
  | set (s : CharSet)
  | assertion (a : Assertion)
  | backreference (ref : Reference)
  | subroutine (ref : Reference)
  /-- `\K` -/
  | keep
  /-- `\R` -/
  | lineBreak
  /-- `\X` -/
  | grapheme
  deriving DecidableEq, Repr

/-- A word inside a bracketed class. -/
inductive ClassToken where
  /-- `]` -/
  | close
  /-- `[` or `[^` -/
  | nested (negated : Bool)
  /-- `&&` -/
  | intersection
  /-- `-` -/
  | hyphen
  | literal (c : Char)
  | set (s : CharSet)
  deriving DecidableEq, Repr

/-- What a token is called in messages. -/
def Token.display : Token → String
  | pipe => "`|`"
  | close => "`)`"
  | classOpen _ => "`[`"
  | dot => "`.`"
  | groupOpen _ => "group"
  | directive change => s!"flag directive `(?{change.text})`"
  | quantifier _ => "quantifier"
  | literal c => s!"literal `{c}`"
  | set _ => "character set"
  | assertion _ => "assertion"
  | backreference _ => "backreference"
  | subroutine _ => "subroutine"
  | keep => "`\\K`"
  | lineBreak => "`\\R`"
  | grapheme => "`\\X`"

/-- What the end of the pattern is called in messages. -/
def endDisplay : String := "EOF"

end Diglot.Source
