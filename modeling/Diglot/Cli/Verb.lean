import Diglot.Cli.Switch

/-!
# The commands of the program

Each command has a word that calls it, operands that it must be given, and options.
-/

namespace Diglot.Cli

/-- The commands of the program. -/
inductive Verb where
  | convert
  | test
  | find
  | check
  deriving DecidableEq, Repr

/-- What a command must be given. -/
structure Operand where
  name : String
  summary : String

namespace Verb

def word : Verb → String
  | convert => "convert"
  | test => "test"
  | find => "find"
  | check => "match"

def all : List Verb := [convert, test, find, check]

def ofWord? (word : String) : Option Verb :=
  all.find? (·.word == word)

def summary : Verb → String
  | convert => "Translate a pattern and print the result"
  | test => "Test a pattern against input"
  | find => "Find all matches in input"
  | check => "Check if pattern matches"

def switches : Verb → List Switch
  | convert => Switch.common ++ [.debug, .json]
  | test => Switch.common ++ [.verbose]
  | find | check => Switch.common

/-- What a command must be given: a pattern, and a text unless it converts. -/
def operands (v : Verb) : List Operand :=
  let pattern : Operand := ⟨"PATTERN", "The Oniguruma pattern"⟩
  match v with
  | convert => [pattern]
  | test => [pattern, ⟨"INPUT", "The input string to test"⟩]
  | find | check => [pattern, ⟨"INPUT", "The input string"⟩]

end Verb

end Diglot.Cli
