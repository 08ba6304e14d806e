import Diglot.Cli.Verb

/-!
# Help

What the program prints about itself and about its commands.
-/

namespace Diglot.Cli

/-- What help can be about. -/
inductive Topic where
  | program
  | command (v : Verb)
  | help
  deriving DecidableEq, Repr

/-- Names with what they stand for, the latter in a column of its own. -/
def columns (rows : List (String × String)) : List String :=
  let width := (rows.map (·.1.length)).foldl max 0
  rows.map fun (name, text) =>
    "  " ++ name ++ String.ofList (List.replicate (width + 2 - name.length) ' ') ++ text

/-- The heading of a help text. -/
def usage (summary form : String) : List String :=
  [summary, "", "Usage: onigex " ++ form, ""]

/-- The name of a value: the long form of the option in capitals, with underscores. -/
def Switch.valueName (s : Switch) : String :=
  String.ofList (s.long.toList.map fun c => if c = '-' then '_' else c.toUpper)

def Switch.form (s : Switch) : String :=
  (match s.short? with
    | some c => "  -" ++ c.toString ++ ", "
    | none => "      ")
  ++ "--" ++ s.long ++ if s.hasValue then " <" ++ s.valueName ++ ">" else ""

/-- What is said about an option. A value that is left out is quoted if it is empty. -/
def Switch.help (s : Switch) : List String :=
  let default := match s.default? with
    | some "" => " [default: \"\"]"
    | some value => " [default: " ++ value ++ "]"
    | none => ""
  [s.form, "          " ++ s.summary ++ default]

/-- What is said about help. -/
def helpSummary : String :=
  "Print this message or the help of the given subcommand(s)"

namespace Topic

/-- What the word after `help` asks about. -/
def ofWords? : List String → Option Topic
  | [] => some program
  | [word] => if word == "help" then some help else (Verb.ofWord? word).map command
  | _ => none

def lines : Topic → List String
  | program =>
    usage "Onigex - translate Oniguruma patterns into ECMAScript patterns" "<COMMAND>"
    ++ "Commands:" :: columns
      (Verb.all.map (fun v => (v.word, v.summary)) ++ [("help", helpSummary)])
    ++ "" :: "Options:" :: columns
      [("-h, --help", "Print help"), ("-V, --version", "Print version")]
  | command v =>
    let operands := v.operands.map fun o => ("<" ++ o.name ++ ">", o.summary)
    usage v.summary (" ".intercalate (v.word :: "[OPTIONS]" :: operands.map (·.1)))
    ++ "Arguments:" :: columns operands
    ++ "" :: "Options:" :: v.switches.flatMap Switch.help
    ++ ["  -h, --help", "          Print help"]
  | help =>
    usage helpSummary "help [COMMAND]..."
    ++ "Arguments:" :: columns [("[COMMAND]...", "Print help for the subcommand(s)")]

end Topic

end Diglot.Cli
