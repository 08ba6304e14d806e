import Diglot.Host.Token

/-!
# Reading the tokens of a host pattern

A reader of one construct looks at the characters after the one that announces it, and gives its
value with the number of characters that it takes. So the loop over a text drops that many
characters each time, and ends because the text gets shorter.
-/

namespace Diglot.Host

open Text Unicode

/-- How a pattern is read, and what has to be known of the whole of it before. -/
structure Dialect where
  grammar : Grammar
  /-- Whether atomic groups are admitted. -/
  extended : Bool
  /-- Whether `\k` always begins a reference by name. -/
  named : Bool
  /-- How many captures the pattern has. -/
  captures : Nat

def Dialect.isStrict (x : Dialect) : Bool :=
  x.grammar.isStrict

/-- Whether a character has a meaning of its own outside classes. -/
def isSyntaxChar (c : Char) : Bool :=
  "^$\\.*+?()[]\x7b\x7d|".toList.contains c

/-- Whether a character in a class of the grammar with sets has to be escaped. -/
def isSetSyntaxChar (c : Char) : Bool :=
  "()[]\x7b\x7d/-\\|".toList.contains c

/-- Whether a character may be escaped in a class of the grammar with sets though it needs not. -/
def isReservedPunctuator (c : Char) : Bool :=
  "&-!#%,:;<=>@\x60~".toList.contains c

/-- Whether a character is reserved in a class of the grammar with sets when it stands twice. -/
def isReservedDouble (c : Char) : Bool :=
  "&!#$%*+,.:;<=>?@^\x60~".toList.contains c

/-- The number that the first `n` characters write in hexadecimal digits. -/
def leadingHex? (n : Nat) (cs : List Char) : Option Nat :=
  if n ≤ cs.length then number? 16 (Nat.pow 16 n) (cs.take n) else none

/-- A leading surrogate and the trailing one that follows as an escape: together they are one code
point. -/
def surrogatePair? (lead : Nat) : List Char → Option Nat
  | '\\' :: 'u' :: cs => do
    let trail ← leadingHex? 4 cs
    if 0xD800 ≤ lead && lead < 0xDC00 && 0xDC00 ≤ trail && trail < 0xE000 then
      some (0x10000 + (lead - 0xD800) * 0x400 + (trail - 0xDC00))
    else none
  | _ => none

/-- The code point of the escape whose characters follow `\u`. -/
def unicodeEscape? (g : Grammar) : List Char → Option (Nat × Nat)
  | '\x7b' :: cs =>
    if g.isStrict then
      match cs.span (isDigit 16) with
      | (digits, '\x7d' :: _) => do
        let n ← number? 16 0x110000 digits
        some (n, digits.length + 2)
      | _ => none
    else none
  | cs => do
    let n ← leadingHex? 4 cs
    match surrogatePair? n (cs.drop 4) with
    | some pair => some (pair, 10)
    | none => some (n, 4)

/-- The code point that an escaped character stands for by itself, if it may be escaped. -/
def identityEscape? (x : Dialect) (inClass : Bool) (c : Char) : Option Nat :=
  let allowed := match x.grammar with
    | .loose => c != 'c' && !(x.named && c = 'k')
    | .unicode => isSyntaxChar c || c = '/' || (inClass && c = '-')
    | .sets => isSyntaxChar c || c = '/' || (inClass && isReservedPunctuator c)
  if allowed then some c.toNat else none

/-- The code point of an octal escape, which is less than 256: it has three digits if the first is
at most 3, and otherwise two. -/
def octalEscape (cs : List Char) : Nat × Nat :=
  let digits := (cs.take (if cs.head?.any (· ≤ '3') then 3 else 2)).takeWhile (isDigit 8)
  (ofDigits 8 digits, digits.length)

/-- The code point of an escape that begins with a digit. The loose grammar takes it for an octal
number, if it can be one. -/
def digitEscape? (x : Dialect) (inClass : Bool) (c : Char) (cs : List Char) : Option (Nat × Nat) :=
  if x.isStrict then
    if c = '0' && !cs.head?.any (isDigit 10) then some (0, 1) else none
  else if isDigit 8 c then some (octalEscape (c :: cs))
  else (identityEscape? x inClass c).map (·, 1)

/-- Whether a character can stand behind `\c`: a letter, or in a class of the loose grammar a digit
or an underscore. -/
def isControlLetter (x : Dialect) (inClass : Bool) (c : Char) : Bool :=
  c.isAlpha || (inClass && !x.isStrict && (isDigit 10 c || c = '_'))

/-- The code point of an escape whose characters follow the backslash. -/
def codeEscape? (x : Dialect) (inClass : Bool) : List Char → Option (Nat × Nat)
  | [] => none
  | c :: cs =>
    match c with
    | 't' => some (0x09, 1)
    | 'n' => some (0x0A, 1)
    | 'v' => some (0x0B, 1)
    | 'f' => some (0x0C, 1)
    | 'r' => some (0x0D, 1)
    | 'c' =>
      match cs with
      | l :: _ => if isControlLetter x inClass l then some (l.toNat % 32, 2) else none
      | [] => none
    | 'x' =>
      match leadingHex? 2 cs with
      | some n => some (n, 3)
      | none => (identityEscape? x inClass c).map (·, 1)
    | 'u' =>
      match unicodeEscape? x.grammar cs with
      | some (n, taken) => some (n, taken + 1)
      | none => (identityEscape? x inClass c).map (·, 1)
    | _ =>
      if inClass && c = 'b' then some (0x08, 1)
      else if isDigit 10 c then digitEscape? x inClass c cs
      else (identityEscape? x inClass c).map (·, 1)

/-- The code point of an escape. In the loose grammar a backslash before a `c` that makes no control
character stands for itself. -/
def codeToken? (x : Dialect) (inClass : Bool) (cs : List Char) : Option (Token × Nat) :=
  match codeEscape? x inClass cs with
  | some (n, taken) => some (.code n, taken)
  | none => if !x.isStrict && cs.head? == some 'c' then some (.code '\\'.toNat, 0) else none

/-- The set that the text between the braces of a property escape stands for, or its complement. In
the grammar with sets it may be a set of texts, which has no complement. -/
def propertySet? (g : Grammar) (negated : Bool) (text : List Char) : Option CharSet :=
  match Property.ofText? text with
  | some p => some (if negated then .complement (.property p) else .property p)
  | none =>
    if g = .sets && !negated then (Emoji.ofName? (String.ofList text)).map .texts else none

/-- The set of an escape whose characters follow the backslash, if it stands for one. -/
def setEscape? (g : Grammar) : List Char → Option (Option (CharSet × Nat))
  | 'd' :: _ => some (some (.digit, 1))
  | 'D' :: _ => some (some (.complement .digit, 1))
  | 's' :: _ => some (some (.space, 1))
  | 'S' :: _ => some (some (.complement .space, 1))
  | 'w' :: _ => some (some (.word, 1))
  | 'W' :: _ => some (some (.complement .word, 1))
  | c :: cs =>
    if g.isStrict && (c = 'p' || c = 'P') then
      match cs with
      | '\x7b' :: cs =>
        match cs.span (· != '\x7d') with
        | (text, '\x7d' :: _) =>
          some <| (propertySet? g (c = 'P') text).map (·, text.length + 3)
        | _ => some none
      | _ => some none
    else none
  | [] => none

/-- The characters of a group name up to the `>` behind it. -/
def nameChars? (cs : List Char) : Option (List Char × Nat) :=
  match cs with
  | [] => none
  | '>' :: _ => some ([], 1)
  | '\\' :: 'u' :: cs => do
    let (n, taken) ← unicodeEscape? .unicode cs
    let c ← charOf? n
    let (rest, count) ← nameChars? (cs.drop taken)
    some (c :: rest, count + taken + 2)
  | c :: cs => do
    let (rest, count) ← nameChars? cs
    some (c :: rest, count + 1)
termination_by cs.length
decreasing_by all_goals (simp only [List.length_cons, List.length_drop]; omega)

def startsName (c : Char) : Bool :=
  c = '$' || c = '_' || isIdStart c

def continuesName (c : Char) : Bool :=
  c = '$' || c = '\u200c' || c = '\u200d' || isIdContinue c

/-- A group name up to the `>` behind it. -/
def groupName? (cs : List Char) : Option (List Char × Nat) := do
  let (name, taken) ← nameChars? cs
  if name.head?.any startsName && name.all continuesName then some (name, taken) else none

/-- The letters of a modifier group up to the colon: some are switched on, and some off after a
hyphen. -/
def modeChange? (cs : List Char) : Option (ModeChange × Nat) :=
  let (text, rest) := cs.span (· != ':')
  if rest.isEmpty then none
  else
    let (on, off) := text.span (· != '-')
    if off.isEmpty && on.isEmpty then none
    else do
      let enabled ← Mode.ofLetters? on
      let disabled ← Mode.ofLetters? off.tail
      if (on.isEmpty && off.tail.isEmpty) || enabled.meets disabled then none
      else some (⟨enabled, disabled⟩, text.length + 1)

/-- What follows an opening parenthesis. Atomic groups are read only if they are admitted. -/
def opener? (extended : Bool) : List Char → Option (Opener × Nat)
  | '?' :: ':' :: _ => some (.plain, 2)
  | '?' :: '=' :: _ => some (.look ⟨false, false⟩, 2)
  | '?' :: '!' :: _ => some (.look ⟨false, true⟩, 2)
  | '?' :: '<' :: '=' :: _ => some (.look ⟨true, false⟩, 3)
  | '?' :: '<' :: '!' :: _ => some (.look ⟨true, true⟩, 3)
  | '?' :: '<' :: cs => do
    let (name, taken) ← groupName? cs
    some (.capture (some name), taken + 2)
  | '?' :: '>' :: _ => if extended then some (.atomic, 2) else none
  | '?' :: cs => do
    let (change, taken) ← modeChange? cs
    some (.modified change, taken + 1)
  | _ => some (.capture none, 0)

/-- The bounds of a quantifier in braces, from behind the opening brace. -/
def bounds? (cs : List Char) : Option (Nat × Option Nat × Nat) :=
  match cs.span (isDigit 10) with
  | ([], _) => none
  | (low, '\x7d' :: _) =>
    let n := ofDigits 10 low
    some (n, some n, low.length + 1)
  | (low, ',' :: cs) =>
    match cs.span (isDigit 10) with
    | ([], '\x7d' :: _) => some (ofDigits 10 low, none, low.length + 2)
    | (high, '\x7d' :: _) =>
      some (ofDigits 10 low, some (ofDigits 10 high), low.length + high.length + 2)
    | _ => none
  | _ => none

/-- A quantifier of which `taken` characters have been read: the question mark of a lazy one
may follow. -/
def quantifier (min : Nat) (max : Option Nat) (taken : Nat) (cs : List Char) :
    Option (Token × Nat) :=
  if max.any (· < min) then none
  else
    match cs.drop taken with
    | '?' :: _ => some (.quantifier min max true, taken + 1)
    | _ => some (.quantifier min max false, taken)

/-- A token outside classes: its first character is `c`, and the characters after it are `cs`. -/
def plainToken? (x : Dialect) (c : Char) (cs : List Char) : Option (Token × Nat) :=
  match c with
  | '^' => some (.edge .lineStart, 0)
  | '$' => some (.edge .lineEnd, 0)
  | '.' => some (.any, 0)
  | '|' => some (.bar, 0)
  | ')' => some (.groupClose, 0)
  | '(' => (opener? x.extended cs).map fun (o, taken) => (.groupOpen o, taken)
  | '[' => if cs.head? == some '^' then some (.classOpen true, 1) else some (.classOpen false, 0)
  | '*' => quantifier 0 none 0 cs
  | '+' => quantifier 1 none 0 cs
  | '?' => quantifier 0 (some 1) 0 cs
  | '\x7b' =>
    match bounds? cs with
    | some (min, max, taken) => quantifier min max taken cs
    | none => if x.isStrict then none else some (.code c.toNat, 0)
  | ']' | '\x7d' => if x.isStrict then none else some (.code c.toNat, 0)
  | '\\' =>
    match cs with
    | 'b' :: _ => some (.edge .wordBoundary, 1)
    | 'B' :: _ => some (.edge .nonWordBoundary, 1)
    | 'k' :: rest =>
      match rest with
      | '<' :: rest =>
        if x.named then (groupName? rest).map fun (name, taken) => (.named name, taken + 2)
        else codeToken? x false cs
      | _ => codeToken? x false cs
    | _ =>
      let digits := cs.takeWhile (isDigit 10)
      let n := ofDigits 10 digits
      if digits.head?.any (· != '0') && (x.isStrict || n ≤ x.captures) then
        some (.numbered n, digits.length)
      else
        match setEscape? x.grammar cs with
        | some found => found.map fun (s, taken) => (.set s, taken)
        | none => codeToken? x false cs
  | _ => some (.code c.toNat, 0)

/-- A character of a text in a class: its first character is `c`, and the characters after it are
`cs`. -/
def textChar? (x : Dialect) (c : Char) (cs : List Char) : Option (Nat × Nat) :=
  if c = '\\' then codeEscape? x true cs
  else if isSetSyntaxChar c || (isReservedDouble c && cs.head? == some c) then none
  else some (c.toNat, 0)

/-- The texts of a class up to the closing brace, divided by bars. The first of them begins with
`before`, in reverse. -/
def classTexts? (x : Dialect) (before : CodeText) (cs : List Char) :
    Option (List CodeText × Nat) :=
  match cs with
  | [] => none
  | '\x7d' :: _ => some ([before.reverse], 1)
  | '|' :: cs => do
    let (ts, count) ← classTexts? x [] cs
    some (before.reverse :: ts, count + 1)
  | c :: cs => do
    let (n, taken) ← textChar? x c cs
    let (ts, count) ← classTexts? x (n :: before) (cs.drop taken)
    some (ts, count + taken + 1)
termination_by cs.length
decreasing_by all_goals (simp only [List.length_cons, List.length_drop]; omega)

/-- The escape of a class whose characters follow the backslash. -/
def classEscape? (x : Dialect) (cs : List Char) : Option (Token × Nat) :=
  match setEscape? x.grammar cs with
  | some found => found.map fun (s, taken) => (.set s, taken)
  | none =>
    match x.grammar, cs with
    | .sets, 'q' :: '\x7b' :: rest =>
      (classTexts? x [] rest).map fun (ts, taken) => (.set (.texts ts), taken + 2)
    | _, _ => codeToken? x true cs

/-- A token inside a class: its first character is `c`, and the characters after it are `cs`. -/
def classToken? (x : Dialect) (c : Char) (cs : List Char) : Option (Token × Nat) :=
  if c = ']' then some (.classClose, 0)
  else if c = '\\' then classEscape? x cs
  else if x.grammar != .sets then
    if c = '-' then some (.hyphen, 0) else some (.code c.toNat, 0)
  else if c = '[' then
    if cs.head? == some '^' then some (.classOpen true, 1) else some (.classOpen false, 0)
  else if c = '-' then
    if cs.head? == some '-' then some (.difference, 1) else some (.hyphen, 0)
  else if c = '&' && cs.head? == some '&' then
    if cs.tail.head? == some '&' then none else some (.intersection, 1)
  else if isSetSyntaxChar c || (isReservedDouble c && cs.head? == some c) then none
  else some (.code c.toNat, 0)

/-- The tokens of a text inside `depth` classes. -/
def tokensFrom? (x : Dialect) (depth : Nat) : List Char → Option (List Token)
  | [] => some []
  | c :: cs => do
    let (t, taken) ← if depth = 0 then plainToken? x c cs else classToken? x c cs
    let ts ← tokensFrom? x (t.classDepth depth) (cs.drop taken)
    some (t :: ts)
termination_by cs => cs.length
decreasing_by simp only [List.length_cons, List.length_drop]; omega

def tokens? (x : Dialect) (text : List Char) : Option (List Token) :=
  tokensFrom? x 0 text

end Diglot.Host
