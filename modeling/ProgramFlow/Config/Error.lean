/-!
What can be wrong with a configuration, and how it is reported.
-/
namespace ProgramFlow

/-- The largest context depth that a configuration may ask for. -/
def maxContextDepth : Nat := 4

inductive ConfigError
  | depthOutOfRange (depth : Nat)
  | missingVersion
  | unsupportedVersion (found : Nat)
  | unknownPreset (name : String)
  | aliasesWithoutStage
  | unreadableFile (path : String)
  | malformedYaml
  | malformedJson
  deriving DecidableEq, Repr

def ConfigError.message : ConfigError → String
  | depthOutOfRange k =>
    "Invalid range for field 'pta.context.k': " ++ toString k ++ " not in 1..=" ++
      toString maxContextDepth ++ ". Context depth must be positive; deep contexts rarely pay off"
  | missingVersion =>
    "Missing 'version' field in configuration file. " ++
      "Add 'version: 1' to the top of your YAML file."
  | unsupportedVersion found =>
    "Unsupported configuration version " ++ toString found ++ ". Supported versions: 1"
  | unknownPreset name =>
    "Unknown preset '" ++ name ++ "'. Valid presets: fast, balanced, precise"
  | aliasesWithoutStage =>
    "Cross-stage configuration conflict: inter_constprop.alias_aware is set but the stage is " ++
      "disabled. Fix: enable inter_constprop or unset alias_aware"
  | unreadableFile path => "IO error: cannot read '" ++ path ++ "'"
  | malformedYaml => "YAML parsing error: not a configuration document"
  | malformedJson => "JSON parsing error: not a configuration document"

end ProgramFlow
