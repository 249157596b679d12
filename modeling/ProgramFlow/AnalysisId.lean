import ProgramFlow.Id
/-!
Keys of the results that a whole-program run publishes.
-/
namespace ProgramFlow

inductive AnalysisId
  | pointsTo
  | cfg (method : MethodId)
  | constants (method : MethodId)
  | liveness (method : MethodId)
  | deadCode (method : MethodId)
  | supergraph
  | interConstants
  deriving DecidableEq, Repr

namespace AnalysisId

def text : AnalysisId → String
  | pointsTo => "pta"
  | cfg m => "cfg(" ++ m.text ++ ")"
  | constants m => "constprop(" ++ m.text ++ ")"
  | liveness m => "livevar(" ++ m.text ++ ")"
  | deadCode m => "deadcode(" ++ m.text ++ ")"
  | supergraph => "icfg"
  | interConstants => "inter-constprop"

/-- The name of the key with its method, as a log line shows it. -/
def debugText (a : AnalysisId) : String :=
  match a with
  | pointsTo => "PointerAnalysis"
  | cfg m => "Cfg" ++ methodText m
  | constants m => "ConstantPropagation" ++ methodText m
  | liveness m => "LiveVariables" ++ methodText m
  | deadCode m => "DeadCode" ++ methodText m
  | supergraph => "Icfg"
  | interConstants => "InterConstantPropagation"
where
  methodText (m : MethodId) : String := "(MethodId(" ++ toString m.index ++ "))"

end AnalysisId

end ProgramFlow
