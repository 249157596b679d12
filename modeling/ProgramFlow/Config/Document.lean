import ProgramFlow.Config.Settings
import ProgramFlow.Document.Json.Reading
import ProgramFlow.Document.Yaml.Reading
/-!
Configuration documents. A document names a preset and may override each stage as a whole; it is
read from YAML or JSON, and settings are written as YAML.
-/
namespace ProgramFlow

open Dataflow (Schedule)
open PointsTo (Sensitivity)

/-- The stages that a document sets. -/
structure Overrides where
  schedule : Option Schedule := none
  sensitivity : Option Sensitivity := none
  inter : Option InterSettings := none
  deadCode : Option Bool := none
  deriving DecidableEq, Repr

structure ConfigDocument where
  version : Option Nat
  preset : String
  overrides : Overrides
  deriving DecidableEq, Repr

/-- The only version of the documents. -/
def documentVersion : Nat := 1

namespace Overrides

/-- The stage settings as a document writes them all. -/
def ofSettings (s : Settings) : Overrides :=
  ⟨s.schedule, s.sensitivity, s.inter, s.deadCode⟩

def apply (o : Overrides) (s : Settings) : Settings :=
  { s with
    schedule := o.schedule.getD s.schedule
    sensitivity := o.sensitivity.getD s.sensitivity
    inter := o.inter.getD s.inter
    deadCode := o.deadCode.getD s.deadCode }

end Overrides

namespace ConfigDocument

section

variable {ν : Type} {m : Type → Type} [Monad m] (F : Format ν m)

def readSchedule (n : ν) : m Schedule := do
  match Schedule.names.lookup (← F.choice n) with
  | some schedule => return schedule
  | none => F.fail

/-- The depth, where the kind has one, is the only field beside the kind. -/
def readSensitivity (n : ν) : m Sensitivity := do
  let (kind, content) ← F.labelled "kind" n
  match Sensitivity.ofKind? kind (content.field? "k") with
  | some σ => if σ.depth?.isSome || content.allowsNone then return σ else F.fail
  | none => F.fail

def readInter (n : ν) : m InterSettings := do
  match ← F.record ["enabled", "alias_aware"] 2 n with
  | [enabled, aliasAware] =>
    return ⟨← F.required F.flag enabled, ← F.required F.flag aliasAware⟩
  | _ => F.fail

def readOverrides (n : ν) : m Overrides := do
  match ← F.record ["solver", "pta", "inter_constprop", "dead_code"] 0 n with
  | [solver, pta, inter, dead] =>
    return {
      schedule := ← F.optional (F.single "kind" (readSchedule F)) solver
      sensitivity := ← F.optional (F.single "context" (readSensitivity F)) pta
      inter := ← F.optional (readInter F) inter
      deadCode := ← F.optional (F.single "enabled" F.flag) dead }
  | _ => F.fail

/-- Reads a document. -/
def read (n : ν) : m ConfigDocument := do
  match ← F.record ["version", "preset", "overrides"] 2 n with
  | [version, preset, overrides] =>
    return {
      version := ← F.optional (F.natural UInt32.size) version
      preset := ← F.required F.text preset
      overrides := (← F.optional (readOverrides F) overrides).getD {} }
  | _ => F.fail

end

def ofJson? (text : String) : Option ConfigDocument := do read Json.format (← Json.parse text)

def ofYaml? (text : String) : Option ConfigDocument := do
  let d ← Yaml.Document.ofText? text
  d.read (read d.format)

/-- What the document settles. The version is looked at before the preset, and the settings are
validated in the end. -/
def settings (d : ConfigDocument) : Except ConfigError Settings := do
  let some version := d.version | throw .missingVersion
  if version ≠ documentVersion then throw (.unsupportedVersion version)
  let some preset := Preset.named? d.preset | throw (.unknownPreset d.preset)
  let s := d.overrides.apply (.ofPreset preset)
  s.validate
  return s

end ConfigDocument

namespace Settings

def ofJson (text : String) : Except ConfigError Settings :=
  match ConfigDocument.ofJson? text with
  | some d => d.settings
  | none => .error .malformedJson

def ofYaml (text : String) : Except ConfigError Settings :=
  match ConfigDocument.ofYaml? text with
  | some d => d.settings
  | none => .error .malformedYaml

/-- The YAML document of the settings, which sets every stage. -/
def toYaml (s : Settings) : String :=
  "version: " ++ toString documentVersion ++ "\npreset: " ++ s.preset.text ++
    "\noverrides:\n  solver:\n    kind: " ++ s.schedule.text ++
    "\n  pta:\n    context:\n      kind: " ++ s.sensitivity.kind ++
    (s.sensitivity.depth?.elim "" fun k => "\n      k: " ++ toString k) ++
    "\n  inter_constprop:\n    enabled: " ++ flag s.inter.enabled ++
    "\n    alias_aware: " ++ flag s.inter.aliasAware ++
    "\n  dead_code:\n    enabled: " ++ flag s.deadCode ++ "\n"
where
  flag (b : Bool) : String := if b then "true" else "false"

end Settings

end ProgramFlow
