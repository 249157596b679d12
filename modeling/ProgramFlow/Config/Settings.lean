import ProgramFlow.Dataflow.Solver
import ProgramFlow.PointsTo.Sensitivity
/-!
Settings of a whole-program run. A preset fixes all stages; each stage can then be set apart.
-/
namespace ProgramFlow

open Dataflow (Schedule)
open PointsTo (Sensitivity)

inductive Preset
  | fast
  | balanced
  | precise
  deriving DecidableEq, Repr

namespace Preset

def all : List Preset := [fast, balanced, precise]

def text : Preset → String
  | fast => "fast"
  | balanced => "balanced"
  | precise => "precise"

/-- The preset of that name in letters of either case. No letter outside ASCII has one of the
letters of these names as its lower case. -/
def named? (name : String) : Option Preset := all.find? (·.text == name.toLower)

end Preset

/-- The interprocedural stage. -/
structure InterSettings where
  enabled : Bool
  aliasAware : Bool
  deriving DecidableEq, Repr

structure Settings where
  preset : Preset
  schedule : Schedule
  sensitivity : Sensitivity
  inter : InterSettings
  deadCode : Bool
  deriving DecidableEq, Repr

namespace Settings

def ofPreset (preset : Preset) : Settings where
  preset
  schedule := .workList
  sensitivity :=
    match preset with
    | .fast => .insensitive
    | .balanced => .object 1
    | .precise => .object 2
  inter := { enabled := true, aliasAware := preset ≠ .fast }
  deadCode := true

def default : Settings := ofPreset .balanced

instance : Inhabited Settings := ⟨default⟩

/-- The stages are set as by default, whatever preset they came from. -/
def hasDefaultStages (s : Settings) : Bool := { s with preset := default.preset } = default

def validate (s : Settings) : Except ConfigError Unit := do
  s.sensitivity.validate
  if s.inter.aliasAware && !s.inter.enabled then
    throw .aliasesWithoutStage

def switch (b : Bool) : String := if b then "on" else "off"

def scheduleText : Schedule → String
  | .workList => "WorkList"
  | .sweeps => "Iterative"

/-- One line that tells the settings apart. -/
def describe (s : Settings) : String :=
  "preset=" ++ s.preset.text ++ " solver=" ++ scheduleText s.schedule ++ " pta=" ++
    s.sensitivity.text ++ " inter_constprop=" ++ switch s.inter.enabled ++
    (if s.inter.aliasAware then "+alias" else "") ++ " dead_code=" ++ switch s.deadCode

end Settings

end ProgramFlow
