import Diglot.Cli.Arguments
import Diglot.Expression
import Diglot.Text.Json

/-!
# Commands

What each command of the program prints. A command runs from its arguments to an outcome: the exit
code and the texts on the two output streams. What has been printed before an error stays.
-/

namespace Diglot.Cli

open Text

/-- A command that is ready to run. -/
structure Command where
  verb : Verb
  pattern : String
  input : String
  arguments : Arguments

/-- What a command has done. -/
structure Outcome where
  code : Nat := 0
  stdout : String := ""
  stderr : String := ""
  deriving DecidableEq, Repr

namespace Command

/-- The command that arguments ask for. Of short options in one argument, the first decides. -/
def read : List String → Except Halt Command
  | [] => .error .usage
  | word :: args =>
    if word == "help" then .error ((Topic.ofWords? args).elim .usage .help)
    else if word == "--help" || word.startsWith "-h" then .error (.help .program)
    else if word == "--version" || word.startsWith "-V" then .error .version
    else
      match Verb.ofWord? word with
      | none => .error .usage
      | some verb => do
        let a ← readArguments verb {} args
        if a.has .debug && a.has .json then throw .usage
        match verb, a.operands with
        | .convert, [pattern] => return ⟨verb, pattern, "", a⟩
        | .convert, _ => throw .usage
        | _, [pattern, input] => return ⟨verb, pattern, input, a⟩
        | _, _ => throw .usage

def options (c : Command) : Except Error Options := do
  let a := c.arguments
  let rules : Rules := {}
  return {
    strict := a.has .strict
    avoidEmulation := a.has .avoidEmulation
    flags := (a.value? .flags).getD ""
    rules := {
      recursionLimit :=
        ((a.value? .recursionLimit).bind Switch.number?).getD rules.recursionLimit
      singleline := a.has .singleline
      asciiWordBoundaries := a.has .asciiWordBoundaries }
    target := ← Target.ofName ((a.value? .target).getD "auto") }

def expression (c : Command) : Except Error Expression := do
  Expression.ofConversion (← Conversion.ofSource (← c.options) c.pattern)

end Command

/-- Lines of text, each with its end. -/
def lines (ls : List String) : String :=
  String.join (ls.map (· ++ "\n"))

/-- The outcome of a command that has printed `printed` and then either goes on or fails. -/
def conclude {α : Type} (printed : String) (result : Except Error α) (f : α → Outcome) : Outcome :=
  match result with
  | .error e => { code := 1, stdout := printed, stderr := lines ["Error: " ++ e.message] }
  | .ok a =>
    let o := f a
    { o with stdout := printed ++ o.stdout }

/-! ## Conversion -/

def emulationJson (e : Emulation) : Json :=
  .object [
    ("hidden_captures", .array (e.hidden.map .number)),
    ("transfers", .array (e.transfers.map fun (n, sources) =>
      .array [.number n, .array (sources.map .number)])),
    ("strategy", (e.strategy.map (Json.text ·.name)).getD .null),
    ("lazy_compile", .bool e.lazyCompile)]

def conversionJson (t : Conversion) : Json :=
  .object [
    ("pattern", .text t.pattern),
    ("flags", .text t.flags),
    ("options", (t.emulation.map emulationJson).getD .null)]

/-- All stages of a conversion, a line each. -/
def stageLines (r : Report) : List String :=
  ["Translation Report", "==================",
    "Input:     " ++ r.input,
    "AST:       " ++ r.source,
    "IR:        " ++ r.core,
    "Generated: " ++ r.written,
    "Output:    " ++ r.result.pattern,
    "Flags:     " ++ r.result.flags] ++
  match r.result.emulation with
  | none => ["Emulation: none"]
  | some e =>
    ["Hidden:    " ++ reportNumbers e.hidden, "Transfers: " ++ reportTransfers e.transfers]
      ++ (e.strategy.map fun s => "Strategy:  " ++ s.name).toList
      ++ ["Lazy:      " ++ Term.bool e.lazyCompile]

/-- A conversion and its emulation plan. -/
def conversionLines (t : Conversion) : List String :=
  ["Output:", "  /" ++ t.pattern ++ "/" ++ t.flags] ++
  match t.emulation with
  | none => []
  | some e =>
    ["", "Emulation:"]
      ++ (if e.hidden.isEmpty then [] else ["  Hidden captures: " ++ reportNumbers e.hidden])
      ++ e.transfers.map (fun (n, sources) => s!"  Transfer: {reportNumbers sources} -> {n}")
      ++ (e.strategy.map fun s => "  Strategy: " ++ s.name).toList
      ++ (if e.lazyCompile then ["  Lazy compile: yes"] else [])

def Command.convert (c : Command) : Outcome :=
  conclude "" c.options fun o =>
    if c.arguments.has .json then
      conclude "" (Conversion.ofSource o c.pattern) fun t =>
        { stdout := lines [(conversionJson t).render] }
    else
      let heading := lines ["Converting pattern...", "  Input:  " ++ c.pattern, ""]
      if c.arguments.has .debug then
        conclude heading (Report.ofSource o c.pattern) fun r => { stdout := lines (stageLines r) }
      else
        conclude heading (Conversion.ofSource o c.pattern) fun t =>
          { stdout := lines (conversionLines t) }

/-! ## Matching -/

/-- A part of a text with its place. -/
def placed (text : String) (s : Host.Span) : String :=
  s!"{s.start}..{s.stop} = {textBetween text s}"

/-- What the groups of a match cover, a line each. -/
def groupLines (text : String) (m : Captures) : List String :=
  (m.groups.zip m.names).zipIdx 1 |>.map fun ((group, name), n) =>
    let label := match name with
      | some name => s!"{n} ({name})"
      | none => toString n
    let value := match group with
      | some s => placed text s
      | none => "unmatched"
    s!"  Group {label}: {value}"

/-- Looks for the first match, and tells where it is. -/
def Command.test (c : Command) : Outcome :=
  let heading := lines
    ["Testing pattern...", "  Pattern: " ++ c.pattern, "  Input:   " ++ c.input, ""]
  conclude heading (c.expression.bind (·.findAt c.input 0 |>.2)) fun found =>
    match found with
    | none => { stdout := lines ["✗ No match"] }
    | some m =>
      let groups := groupLines c.input m
      { stdout := lines (
          ["✓ Match found!", s!"  Position: {m.start}..{m.stop}",
            "  Match:    " ++ textBetween c.input ⟨m.start, m.stop⟩]
          ++ if c.arguments.has .verbose && !groups.isEmpty then
              ["", "Capture groups:"] ++ groups
            else []) }

/-- Looks for all matches, and lists them. -/
def Command.find (c : Command) : Outcome :=
  conclude "" (c.expression.bind (·.findAll c.input |>.2)) fun found =>
    if found.isEmpty then { stdout := lines ["No matches found"] }
    else
      { stdout := lines ([s!"Found {found.length} match(es)", ""]
          ++ (found.zipIdx 1).map fun (m, n) =>
            s!"  [{n}] {placed c.input ⟨m.start, m.stop⟩}") }

/-- Tells whether there is a match, by the exit code as well. -/
def Command.check (c : Command) : Outcome :=
  conclude "" (c.expression.bind (·.test c.input |>.2)) fun found =>
    if found then { code := 0, stdout := lines ["true"] }
    else { code := 1, stdout := lines ["false"] }

def Command.run (c : Command) : Outcome :=
  match c.verb with
  | .convert => c.convert
  | .test => c.test
  | .find => c.find
  | .check => c.check

/-! ## The program -/

def run (args : List String) : Outcome :=
  match Command.read args with
  | .ok c => c.run
  | .error (.help topic) => { stdout := lines topic.lines }
  | .error .version => { stdout := lines ["onigex 0.1.0"] }
  | .error .usage =>
    { code := 2
      stderr := lines ["error: invalid arguments", "", "For more information, try '--help'."] }

end Diglot.Cli
