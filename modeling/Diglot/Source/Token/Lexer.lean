import Diglot.Source.Token.Escape
import Diglot.Unicode.Kind

/-!
# Reading tokens

`nextToken` reads a word outside bracketed classes and `nextClassToken` a word inside one; which of
the two applies, and whether blanks count, is for the caller to know. Both give `none` at the end of
the text only, and every word takes at least one character (`nextToken_length`,
`nextClassToken_length`).
-/

namespace Diglot.Source

open Text Reader

/-! ## Blanks and comments -/

/-- Where a reader stands among characters that do not count. -/
inductive Gap where
  | outside
  /-- In a comment that ends with its line. -/
  | line
  /-- In a comment group that opened after `start` characters. -/
  | group (start : Nat)
  /-- After a backslash in such a group. -/
  | escaped (start : Nat)

/-- How many characters to skip before the next word, `n` of them having been skipped. The error is
the number of characters before a comment group that is not closed. Comment groups are skipped
always, blanks and line comments in free spacing only. -/
def gapLength (extended : Bool) : Gap → Nat → List Char → Except Nat Nat
  | .outside, n, '(' :: '?' :: '#' :: cs => gapLength extended (.group n) (n + 3) cs
  | .outside, n, c :: cs =>
    if extended && Unicode.isWhitespace c then gapLength extended .outside (n + 1) cs
    else if extended && c = '#' then gapLength extended .line (n + 1) cs
    else .ok n
  | .line, n, c :: cs => gapLength extended (if c = '\n' then .outside else .line) (n + 1) cs
  | .group s, n, c :: cs =>
    gapLength extended (if c = '\\' then .escaped s else if c = ')' then .outside else .group s)
      (n + 1) cs
  | .escaped s, n, _ :: cs => gapLength extended (.group s) (n + 1) cs
  | .outside, n, [] | .line, n, [] => .ok n
  | .group s, _, [] | .escaped s, _, [] => .error s

/-- Skips blanks and comments. An unclosed comment group takes the rest of the text with it. -/
def skipGap (extended : Bool) : Reader Unit :=
  ⟨fun c =>
    match gapLength extended .outside 0 c.rest with
    | .ok n => (.ok (), ⟨c.advance n, c.reaches_advance _⟩)
    | .error s =>
      (.error (.malformed (c.pos + s) .unclosedComment),
        ⟨c.advance c.rest.length, c.reaches_advance _⟩)⟩

/-! ## Quantifiers -/

/-- A quantifier sign with its suffix: `?` makes it lazy, `+` possessive. -/
def suffixed (min : Nat) (max : Option Nat) : Reader Token := do
  if ← eat '?' then return .quantifier ⟨min, max, .lazy⟩
  if ← eat '+' then return .quantifier ⟨min, max, .possessive⟩
  return .quantifier ⟨min, max, .greedy⟩

/-- A digit string as a 32-bit number. One that is too large is taken, but is no number. -/
def count : Reader (Option Nat) := do
  return number? 10 (Nat.pow 2 32) (← takeWhile (isDigit 10))

/-- The end of an interval with the given bounds. Only an interval with two different bounds can be
made lazy. -/
def intervalEnd (min : Nat) (max : Option Nat) : Reader (Option Token) := do
  if !(← eat '\x7d') || max.any (· < min) then return none
  if max != some min then
    if ← eat '?' then return some (.quantifier ⟨min, max, .lazy⟩)
  return some (.quantifier ⟨min, max, .greedy⟩)

/-- An interval after its opening brace: bounds `n`, `n,`, `,m` or `n,m`. Anything else is no
interval and is not taken. -/
def interval : Reader (Option Token) := orBack do
  let low ← count
  if ← eat ',' then
    let high ← count
    if low.isNone && high.isNone then return none
    intervalEnd (low.getD 0) high
  else
    match low with
    | some n => intervalEnd n (some n)
    | none => return none

/-! ## Groups -/

def isNameChar (c : Char) : Bool :=
  Unicode.isAlphanumeric c || c = '_'

/-- A group name up to `closer`. It is not empty and does not start with a digit. -/
def groupName (closer : Char) : Reader String := do
  let start ← position
  let name ← takeWhile isNameChar
  if (← char?) != some closer then failAt start .groupNameCharacter
  if name.isEmpty || name.head?.any (isDigit 10) then
    failAt start (.groupName (String.ofList name))
  return String.ofList name

/-- The flags in a run of flag letters. -/
def flagsOf (letters : List Char) : InlineFlags where
  ignoreCase := letters.contains 'i'
  dotAll := letters.contains 'm'
  extended := letters.contains 'x'

/-- A flag group after `(?`: letters to switch on, then letters to switch off behind a hyphen. -/
def flagGroup (start : Nat) : Reader Token := do
  let isLetter := fun c => c = 'i' || c = 'm' || c = 'x'
  let on ← takeWhile isLetter
  let off ← if ← eat '-' then takeWhile isLetter else pure []
  let change : FlagChange := ⟨flagsOf on, flagsOf off⟩
  let place ← position
  match ← char? with
  | some ')' => return .directive change
  | some ':' => return .groupOpen (.flags change)
  | some c => failAt place (.unknownInlineFlag c)
  | none => failAt start .unclosedFlags

/-- A group opener after its parenthesis, which stands at `start`. -/
def groupOpener (start : Nat) : Reader Token := do
  if !(← eat '?') then return .groupOpen .capture
  if (← peek?).any (fun c => c = 'i' || c = 'm' || c = 'x' || c = '-') then
    return ← flagGroup start
  match ← char? with
  | some ':' => return .groupOpen .plain
  | some '>' => return .groupOpen .atomic
  | some '=' => return .groupOpen (.look ⟨false, false⟩)
  | some '!' => return .groupOpen (.look ⟨false, true⟩)
  | some '~' => return .groupOpen .absent
  | some '<' =>
    if ← eat '=' then return .groupOpen (.look ⟨true, false⟩)
    if ← eat '!' then return .groupOpen (.look ⟨true, true⟩)
    return .groupOpen (.named (← groupName '>'))
  | some '\'' => return .groupOpen (.named (← groupName '\''))
  | some '(' => fail (.unsupported .conditionalGroup)
  | _ => failAt start .invalidGroupSyntax

/-! ## References and escapes -/

/-- The signed 32-bit number that a text writes, with an optional sign. -/
def level? : List Char → Option Int
  | '-' :: cs => (number? 10 (Nat.pow 2 31 + 1) cs).map fun n => -(n : Int)
  | cs => (signedNumber? 10 (Nat.pow 2 31) cs).map fun n => (n : Int)

/-- The reference that stands between the brackets of `\k` or `\g`. -/
def referenceOf (start : Nat) (kind : ReferenceKind) (content : List Char) :
    Except Error Reference :=
  let isSign := fun c => c = '+' || c = '-'
  let signed := content.head?.any isSign
  if content.any isSign && !signed then .error (.unsupported (.recursionLevel kind))
  else
    match level? content with
    | some n =>
      if content.head? = some '-' then .ok (.relative n)
      else if content.head? = some '+' then .error (.unsupported (.forwardRelative kind))
      else .ok (.number n.toNat)
    | none =>
      if content.isEmpty || !content.all isNameChar then
        .error (.malformed start (.referenceName kind (String.ofList content)))
      else .ok (.name (String.ofList content))

/-- The reference after `\k` or `\g`, in angle brackets or in quotes. -/
def reference (start : Nat) (kind : ReferenceKind) : Reader Reference := do
  let closer ← match ← char? with
    | some '<' => pure '>'
    | some '\'' => pure '\''
    | _ => failAt start (.invalidReference kind)
  let content ← takeWhile (· != closer)
  if !(← eat closer) then failAt start (.unclosedReference kind)
  match referenceOf start kind content with
  | .ok r => return r
  | .error e => fail e

/-- An escape outside bracketed classes, after its backslash, which stands at `start`. -/
def escape (start : Nat) : Reader Token := do
  match ← peek? with
  | some 'b' => skip 1; return .assertion .wordBoundary
  | some 'B' => skip 1; return .assertion .nonWordBoundary
  | some 'A' => skip 1; return .assertion .stringStart
  | some 'z' => skip 1; return .assertion .stringEnd
  | some 'Z' => skip 1; return .assertion .stringEndNewline
  | some 'G' => skip 1; return .assertion .searchStart
  | some 'K' => skip 1; return .keep
  | some 'R' => skip 1; return .lineBreak
  | some 'X' => skip 1; return .grapheme
  | some 'k' => skip 1; return .backreference (← reference start .backreference)
  | some 'g' => skip 1; return .subroutine (← reference start .subroutine)
  | some c =>
    if '1' ≤ c && c ≤ '9' then return .backreference (.number ((← count).getD 0))
    match ← Escape.shared start with
    | .char c => return .literal c
    | .set s => return .set s
  | none => failAt start .trailingBackslash

/-! ## Words -/

/-- The word that begins with `c` at `start`, after `c`. -/
def tokenFrom (start : Nat) (c : Char) : Reader Token :=
  match c with
  | '|' => return .pipe
  | ')' => return .close
  | '.' => return .dot
  | '^' => return .assertion .lineStart
  | '$' => return .assertion .lineEnd
  | '[' => return .classOpen (← eat '^')
  | '(' => groupOpener start
  | '*' => suffixed 0 none
  | '+' => suffixed 1 none
  | '?' => suffixed 0 (some 1)
  | '\x7b' => return (← interval).getD (.literal '\x7b')
  | '\\' => escape start
  | c => return .literal c

/-- Reads the next word with `r`, which is given the place and the first character of it. At the end
of the text there is no word. -/
def nextWord {α : Type} (r : Nat → Char → Reader α) : Reader (Option α) :=
  ⟨fun
    | ⟨p, []⟩ => (.ok none, ⟨⟨p, []⟩, .refl _⟩)
    | ⟨p, x :: cs⟩ =>
      let found := (r p x).run ⟨p + 1, cs⟩
      (found.1.map some, ⟨found.2.1, .trans ⟨[x], rfl, rfl⟩ found.2.2⟩)⟩

/-- The next word outside bracketed classes. -/
def nextToken (extended : Bool) : Reader (Option Token) := do
  skipGap extended
  nextWord tokenFrom

/-- A POSIX bracket after its `[`; not taken if it is none. -/
def posix : Reader (Option CharSet) := orBack do
  skip 1
  let negated ← eat '^'
  let name ← takeWhile Char.isAlpha
  if name.isEmpty then return none
  if ← eat ':' then
    if ← eat ']' then return some (.posix (String.ofList name) negated)
  return none

/-- The class word that begins with `c` at `start`, after `c`. -/
def classTokenFrom (start : Nat) (c : Char) : Reader ClassToken :=
  match c with
  | ']' => return .close
  | '&' => return if ← eat '&' then .intersection else .literal '&'
  | '-' => return .hyphen
  | '[' => do
    if (← peek?) = some ':' then
      if let some s ← posix then return .set s
    return .nested (← eat '^')
  | '\\' => do
    match ← peek? with
    | some 'b' => skip 1; return .literal '\x08'
    | some d =>
      if '1' ≤ d && d ≤ '7' then
        return .literal (Char.ofNat (ofDigits 8 (← takeAtMost 3 (isDigit 8))))
    | none => pure ()
    match ← Escape.shared start with
    | .char c => return .literal c
    | .set s => return .set s
  | c => return .literal c

/-- The next word inside a bracketed class. -/
def nextClassToken : Reader (Option ClassToken) :=
  nextWord classTokenFrom

/-! ## Progress -/

/-- A word takes at least one character. -/
theorem nextWord_length {α : Type} {r : Nat → Char → Reader α} {c : Cursor} {a : α}
    (h : ((nextWord r).run c).1 = .ok (some a)) :
    ((nextWord r).run c).2.1.rest.length < c.rest.length := by
  rcases c with ⟨p, _ | ⟨x, cs⟩⟩
  · cases h
  · exact Nat.lt_succ_of_le ((r p x).run ⟨p + 1, cs⟩).2.2.length_le

theorem nextToken_length {extended : Bool} {c : Cursor} {t : Token}
    (h : ((nextToken extended).run c).1 = .ok (some t)) :
    ((nextToken extended).run c).2.1.rest.length < c.rest.length := by
  simp only [nextToken, bind, next] at h ⊢
  split at h
  · cases h
  · next a d heq => exact Nat.lt_of_lt_of_le (nextWord_length h) d.2.length_le

theorem nextClassToken_length {c : Cursor} {t : ClassToken}
    (h : (nextClassToken.run c).1 = .ok (some t)) :
    (nextClassToken.run c).2.1.rest.length < c.rest.length :=
  nextWord_length h

end Diglot.Source
