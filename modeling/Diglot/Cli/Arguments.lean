import Diglot.Cli.Help

/-!
# Arguments of the command line

Options come in a long form, `--flags im` or `--flags=im`, and some in a short form, `-f im`, `-fim`
or `-f=im`. Short options without a value can share a hyphen. After `--` everything is an operand.
No option may be repeated.
-/

namespace Diglot.Cli

/-- Why the arguments do not amount to a command. -/
inductive Halt where
  /-- They are wrong. -/
  | usage
  /-- They ask for help. -/
  | help (topic : Topic)
  /-- They ask for the version. -/
  | version
  deriving DecidableEq, Repr

/-- Arguments taken apart: options with their values, and operands. -/
structure Arguments where
  switches : List (Switch × String) := []
  operands : List String := []
  deriving DecidableEq, Repr

namespace Arguments

def has (a : Arguments) (s : Switch) : Bool :=
  (a.switches.lookup s).isSome

def value? (a : Arguments) (s : Switch) : Option String :=
  a.switches.lookup s

/-- The arguments with one more option, unless it is there or does not take the value. -/
def addSwitch (a : Arguments) (s : Switch) (value : String) : Except Halt Arguments :=
  if a.has s || !s.admits value then .error .usage
  else .ok { a with switches := a.switches ++ [(s, value)] }

/-- The arguments with one more operand, unless there are enough. -/
def addOperand (a : Arguments) (v : Verb) (value : String) : Except Halt Arguments :=
  if v.operands.length ≤ a.operands.length then .error .usage
  else .ok { a with operands := a.operands ++ [value] }

end Arguments

/-- Whether an argument can be a value or an operand where options are still looked for. -/
def isPlain (arg : String) : Bool :=
  arg == "-" || arg.toList.head? != some '-'

/-- The short options behind a hyphen. An option that has a value takes the rest of the argument; if
nothing is left, it is handed back to take the next argument. -/
def shortSwitches (v : Verb) (a : Arguments) :
    List Char → Except Halt (Arguments × Option Switch)
  | [] => .ok (a, none)
  | 'h' :: _ => .error (.help (.command v))
  | c :: cs =>
    match v.switches.find? (·.short? == some c) with
    | none => .error .usage
    | some s =>
      if s.hasValue then
        match cs with
        | [] => .ok (a, some s)
        | '=' :: value => return (← a.addSwitch s (String.ofList value), none)
        | value => return (← a.addSwitch s (String.ofList value), none)
      else do
        shortSwitches v (← a.addSwitch s "") cs

/-- The option behind two hyphens. If its value is the next argument, it is handed back. -/
def longSwitch (v : Verb) (a : Arguments) (text : List Char) :
    Except Halt (Arguments × Option Switch) :=
  let (name, value) := text.span (· != '=')
  let name := String.ofList name
  if name == "help" then
    if value.isEmpty then .error (.help (.command v)) else .error .usage
  else
    match v.switches.find? (·.long == name), value with
    | none, _ => .error .usage
    | some s, [] =>
      if s.hasValue then .ok (a, some s) else return (← a.addSwitch s "", none)
    | some s, _ :: value =>
      if s.hasValue then return (← a.addSwitch s (String.ofList value), none) else .error .usage

/-- Takes the arguments apart that follow the word for a command. -/
def readArguments (v : Verb) (a : Arguments) : List String → Except Halt Arguments
  | [] => .ok a
  | arg :: args =>
    if isPlain arg then do
      readArguments v (← a.addOperand v arg) args
    else if arg == "--" then args.foldlM (·.addOperand v ·) a
    else do
      let (a, pending) ← match arg.toList with
        | '-' :: '-' :: text => longSwitch v a text
        | text => shortSwitches v a text.tail
      match pending, args with
      | none, args => readArguments v a args
      | some s, value :: args =>
        if isPlain value then readArguments v (← a.addSwitch s value) args
        else throw .usage
      | some _, [] => throw .usage

end Diglot.Cli
