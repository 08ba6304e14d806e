import Diglot.Core.Report
import Diglot.Emitted.Writer
import Diglot.Options
import Diglot.Reduction.Host

/-!
# Conversions

A conversion takes a source pattern all the way to host text: it is read, lowered, written and
reduced. What the host text cannot say by itself is left to an emulation plan for the time of
matching.
-/

namespace Diglot

/-- What has to be done when a converted pattern is matched. -/
structure Emulation where
  /-- The captures that the user does not see. -/
  hidden : List Nat := []
  /-- A capture, and the captures that are reported under it. -/
  transfers : List (Nat × List Nat) := []
  /-- Which matches count. -/
  strategy : Option Strategy := none
  /-- Whether the pattern is compiled when it is first used. -/
  lazyCompile : Bool := false
  deriving DecidableEq, Repr

/-- A pattern for the host, with the plan for matching it if it needs one. -/
structure Conversion where
  pattern : String
  flags : String
  emulation : Option Emulation
  deriving DecidableEq, Repr

structure Stages where
  source : Source.Pattern
  core : Core.Pattern
  written : Emitted.Written
  result : Conversion

namespace Settings

/-- How the source pattern is read. -/
def reading (s : Settings) : Source.ReadOptions where
  flags := s.flags
  captureGroup := s.rules.captureGroup
  allowOrphans := s.rules.allowOrphans

/-- How its tree is lowered. -/
def lowering (s : Settings) : Core.LowerOptions where
  strict := s.strict
  asciiWordBoundaries := s.rules.asciiWordBoundaries
  avoidEmulation := s.avoidEmulation
  singleline := s.rules.singleline

/-- How the core tree is written. -/
def writing (s : Settings) : Emitted.WriteOptions where
  strict := s.strict
  target := s.target
  recursionLimit := s.rules.recursionLimit
  verbose := s.verbose

/-- Whether a pattern of a length is compiled when it is first used. -/
def compilesLazily (s : Settings) (length : Nat) : Bool :=
  s.lazyCompileLength.any (· ≤ length)

/-- The emulation plan for a pattern, if it needs one. -/
def emulation? (s : Settings) (strategy : Option Strategy) (p : Reduction.Draft) :
    Option Emulation :=
  let lazyCompile := s.compilesLazily p.text.length
  if p.layout.isEmpty && strategy.isNone && !lazyCompile then none
  else some { hidden := p.layout.hidden, transfers := p.layout.transfers, strategy, lazyCompile }

/-- The host's flags for a pattern with the flags `flags` of its own. -/
def hostFlags (s : Settings) (flags : String) : String :=
  (if s.hasIndices then "d" else "") ++ (if s.global then "g" else "") ++ flags

/-- Reduces a written pattern and puts the conversion together. -/
def finish (s : Settings) (strategy : Option Strategy) (w : Emitted.Written) :
    Except Error Conversion := do
  let p ← Reduction.toHost ⟨w.text, w.layout⟩
  if s.avoidEmulation && !p.layout.isEmpty then throw (.unsupported .emulationWrapper)
  return {
    pattern := String.ofList p.text
    flags := s.hostFlags w.flags
    emulation := s.emulation? strategy p }

/-- Converts a source pattern, and keeps all stages. -/
def run (s : Settings) (pattern : String) : Except Error Stages := do
  let source ← Source.Pattern.read s.reading pattern.toList
  let core ← Core.Pattern.lower s.lowering source
  let written ← Emitted.writePattern s.writing core.root
  let result ← s.finish core.strategy written
  return { source, core, written, result }

end Settings

def Stages.ofSource (o : Options) (pattern : String) : Except Error Stages := do
  (← o.normalize).run pattern

def Conversion.ofSource (o : Options) (pattern : String) : Except Error Conversion := do
  return (← Stages.ofSource o pattern).result

/-- A conversion with its stages as texts. -/
structure Report where
  input : String
  source : String
  core : String
  written : String
  result : Conversion

/-- Converts a source pattern, and reports all stages. -/
def Report.ofSource (o : Options) (pattern : String) : Except Error Report := do
  let stages ← Stages.ofSource o pattern
  return {
    input := pattern
    source := stages.source.root.report
    core := stages.core.root.report
    written := String.ofList stages.written.text
    result := stages.result }

end Diglot
