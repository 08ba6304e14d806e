import Diglot.Search
import Diglot.Text.Offset

/-!
# Expressions

An expression is a converted pattern that texts are matched against. It hides what emulation adds
to the pattern, and keeps the place where a global search goes on. Compilation can be put off until
the expression is first used.

Offsets into a text count its bytes in UTF-8.
-/

namespace Diglot

open Host (Span Found Regex)

/-- A match as the user sees it. -/
structure Captures where
  start : Nat
  stop : Nat
  /-- What the visible captures cover. -/
  groups : List (Option Span)
  names : List (Option String)
  deriving DecidableEq, Repr

namespace Captures

/-- What a group covers; number 0 is the whole match. -/
def group (c : Captures) (n : Nat) : Option Span :=
  if n = 0 then some ⟨c.start, c.stop⟩ else c.groups.getD (n - 1) none

/-- What the first group with a name covers. -/
def namedGroup (c : Captures) (name : String) : Option Span :=
  (c.names.findIdx? (· == some name)).bind fun i => c.group (i + 1)

end Captures

/-- The part of a text between two offsets. -/
def textBetween (text : String) (s : Span) : String :=
  String.Pos.Raw.extract text ⟨s.start⟩ ⟨s.stop⟩

/-- A pattern that texts are matched against. -/
structure Expression where
  source : String
  /-- Its flags. Those that do not concern the host engine are among them. -/
  flags : String
  /-- The plan for what the host pattern cannot say. Without a plan the host's matches are reported
  as they are. -/
  emulation : Option Emulation
  /-- The numbers of the captures that the user sees. -/
  visible : List Nat
  names : List (Option String)
  /-- The compiled pattern, unless its compilation has been put off. -/
  regex : Option Regex
  /-- Where the next global search begins. -/
  lastIndex : Nat := 0

namespace Expression

def compile (source flags : String) : Except Error Regex :=
  match Regex.compile? source.toList flags.toList with
  | some r => .ok r
  | none => .error .rejected

def captureNames (source : String) : Except Error (List (Option String)) := do
  return (← Emitted.captureNames source.toList).map (·.map String.ofList)

/-- An expression that reports the host's matches as they are. -/
def native (source flags : String) : Except Error Expression := do
  let regex ← compile source flags
  let names ← captureNames source
  return {
    source, flags, names
    emulation := none
    visible := List.range' 1 names.length
    regex := some regex }

/-- An expression with an emulation plan. -/
def emulated (source flags : String) (e : Emulation) : Except Error Expression := do
  let names ← captureNames source
  let visible := e.visible names.length
  let regex ← if e.lazyCompile then pure none else some <$> compile source flags
  return {
    source, flags, visible, regex
    emulation := some e
    names := visible.map fun n => names.getD (n - 1) none }

def ofConversion (t : Conversion) : Except Error Expression :=
  match t.emulation with
  | none => native t.pattern t.flags
  | some e => emulated t.pattern t.flags e

/-- Whether searches go on where the last one ended. -/
def isGlobal (x : Expression) : Bool :=
  x.flags.toList.contains 'g'

def isCompiled (x : Expression) : Bool :=
  x.regex.isSome

/-- The plan of an expression; without a plan nothing is hidden, moved or refused. -/
def plan (x : Expression) : Emulation :=
  x.emulation.getD {}

/-! ## Matching -/

/-- A match of the host as the user sees it, where positions have offsets. -/
def captures (x : Expression) (offset : Nat → Nat) (found : Found) : Captures :=
  let bytes := fun (s : Span) => (⟨offset s.start, offset s.stop⟩ : Span)
  { start := (bytes found.span).start
    stop := (bytes found.span).stop
    groups := x.visible.map fun n => (x.plan.report found n).map bytes
    names := x.names }

/-- The first match that counts from a position of a text on, with a compiled pattern. -/
def search (x : Expression) (r : Regex) (text : Array Char) : HostSearch :=
  x.plan.find text (r.search text)

/-- The compiled pattern. It is kept once it has been compiled. -/
def prepare (x : Expression) : Expression × Except Error Regex :=
  match x.regex with
  | some r => (x, .ok r)
  | none =>
    match compile x.source x.flags with
    | .ok r => ({ x with regex := some r }, .ok r)
    | .error e => (x, .error e)

/-- The first match at or after an offset. An offset that does not fall between two characters finds
nothing. -/
def findAt (x : Expression) (text : String) (start : Nat) :
    Expression × Except Error (Option Captures) :=
  match x.prepare with
  | (x, .error e) => (x, .error e)
  | (x, .ok r) =>
    let found := (Text.indexAt? text.toList start).bind (x.search r text.toList.toArray)
    (x, .ok (found.map (x.captures (Text.offsetOf text.toList))))

/-- All matches, one after the other. Where a global search goes on does not matter and does not
change. -/
def findAll (x : Expression) (text : String) : Expression × Except Error (List Captures) :=
  match x.prepare with
  | (x, .error e) => (x, .error e)
  | (x, .ok r) =>
    let chars := text.toList.toArray
    let offsets := Text.offsetTable text.toList
    (x, .ok ((allFrom (x.search r chars) chars.size 0).map (x.captures (Text.offsetIn offsets))))

/-- The next match. A global search goes on where the last one ended, and starts afresh after it has
found nothing. -/
def exec (x : Expression) (text : String) : Expression × Except Error (Option Captures) :=
  if !x.isGlobal then x.findAt text 0
  else if (Text.indexAt? text.toList x.lastIndex).isNone then ({ x with lastIndex := 0 }, .ok none)
  else
    match x.findAt text x.lastIndex with
    | (x, .error e) => (x, .error e)
    | (x, .ok found) => ({ x with lastIndex := (found.map (·.stop)).getD 0 }, .ok found)

def test (x : Expression) (text : String) : Expression × Except Error Bool :=
  let (x, found) := x.exec text
  (x, found.map (·.isSome))

end Expression

/-! ## Reports -/

open Text

def reportNumbers (ns : List Nat) : String :=
  Term.list (ns.map Term.nat)

def reportTransfers (ts : List (Nat × List Nat)) : String :=
  Term.list (ts.map fun (n, sources) => Term.apply "" [Term.nat n, reportNumbers sources])

/-- The constructor of a strategy in reports. -/
def Strategy.title : Strategy → String
  | searchStart => "SearchStart"
  | notSearchStart => "NotSearchStart"
  | lineOrSearchStart => "LineOrSearchStart"
  | stringOrSearchStart => "StringOrSearchStart"

def Emulation.describe (e : Emulation) : String :=
  Term.record "EmulationConfig" [
    ("hidden_captures", reportNumbers e.hidden),
    ("transfers", reportTransfers e.transfers),
    ("strategy", Term.option Strategy.title e.strategy),
    ("lazy_compile", Term.bool e.lazyCompile)]

def Expression.describe (x : Expression) : String :=
  let common := [("source", quoteText x.source), ("flags", quoteText x.flags)]
  match x.emulation with
  | none => Term.record "NativePattern" common
  | some e =>
    Term.record "EmulatedPattern"
      (common ++ [("config", e.describe), ("compiled", Term.bool x.isCompiled)])

end Diglot
