import Diglot.Options
import Diglot.Text.Digits

/-!
# Options of the command line

Every option has a long form, and some have a short form of one letter. An option is a mere switch
or has a value, which may have to be a number.
-/

namespace Diglot.Cli

/-- The options of all commands. -/
inductive Switch where
  | flags
  | target
  | strict
  | avoidEmulation
  | recursionLimit
  | singleline
  | asciiWordBoundaries
  | debug
  | json
  | verbose
  deriving DecidableEq, Repr

namespace Switch

def long : Switch → String
  | flags => "flags"
  | target => "target"
  | strict => "strict"
  | avoidEmulation => "avoid-emulation"
  | recursionLimit => "recursion-limit"
  | singleline => "singleline"
  | asciiWordBoundaries => "ascii-word-boundaries"
  | debug => "debug"
  | json => "json"
  | verbose => "verbose"

def short? : Switch → Option Char
  | flags => some 'f'
  | target => some 't'
  | debug => some 'd'
  | verbose => some 'v'
  | _ => none

def summary : Switch → String
  | flags => "Oniguruma flags (any of i, m, x, D, S, W)"
  | target => "Target level: ES2018, ES2024, ES2025 or auto"
  | strict => "Fail instead of approximating"
  | avoidEmulation => "Fail if the pattern needs the emulation wrapper"
  | recursionLimit => "Maximum depth for recursion emulation"
  | singleline => "\x60^\x60 and \x60$\x60 match only at the string boundaries"
  | asciiWordBoundaries => "\x60\\b\x60 and \x60\\B\x60 use ASCII word characters"
  | debug => "Show every pipeline stage"
  | json => "Print the compiled details as JSON"
  | verbose => "Show detailed match information"

/-- The value that an option has if none is given, for an option that has a value. -/
def default? : Switch → Option String
  | flags => some ""
  | target => some "auto"
  | recursionLimit =>
    let rules : Rules := {}
    some (toString rules.recursionLimit)
  | _ => none

def hasValue (s : Switch) : Bool :=
  s.default?.isSome

/-- The 32-bit number that a value writes, with an optional sign. -/
def number? (value : String) : Option Nat :=
  match value.toList with
  | '-' :: cs => Text.number? 10 1 cs
  | cs => Text.signedNumber? 10 (Nat.pow 2 32) cs

def admits (s : Switch) (value : String) : Bool :=
  s != recursionLimit || (number? value).isSome

/-- The options that all commands have. -/
def common : List Switch :=
  [flags, target, strict, avoidEmulation, recursionLimit, singleline, asciiWordBoundaries]

end Switch

end Diglot.Cli
