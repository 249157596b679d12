import ProgramFlow.AnalysisId
import ProgramFlow.Config.Error
import ProgramFlow.Syntax.Operator
/-!
The reasons for which building a program or analysing it fails, and how they are reported.
-/
namespace ProgramFlow

/-- The analyses that report failures under their own name. -/
inductive AnalysisName
  | constants | liveness | pointsTo | interConstants
  deriving DecidableEq, Repr

def AnalysisName.text : AnalysisName → String
  | constants => "constprop"
  | liveness => "livevar"
  | pointsTo => "pta"
  | interConstants => "inter-constprop"

/-- A program that breaks a rule of the program model. -/
inductive ProgramFault
  | unfinishedMethod (method : String)
  | notACondition (op : Operator) (method : String) (position : Nat)
  | targetOutOfBounds (target : Nat) (method : String) (length : Nat)
  | danglingTarget (target : Nat) (method : String)
  | noMain
  | noEntryMethods
  | notANode (stmt : StmtId) (method : MethodId)
  deriving DecidableEq, Repr

def ProgramFault.message : ProgramFault → String
  | unfinishedMethod m => "method '" ++ m ++ "' was declared but never finished"
  | notACondition op m i =>
    "'" ++ op.symbol ++ "' is not a condition operator (method '" ++ m ++ "', index " ++
      toString i ++ ")"
  | targetOutOfBounds t m n =>
    "branch target " ++ toString t ++ " out of bounds in method '" ++ m ++ "' (body has " ++
      toString n ++ " statements)"
  | danglingTarget t m => "branch target " ++ toString t ++ " out of bounds in method '" ++ m ++ "'"
  | noMain => "no entry method set"
  | noEntryMethods => "ICFG needs at least one entry method"
  | notANode s m => s.text ++ " is not a node of the CFG of " ++ m.text

inductive AnalysisError
  /-- An instruction that the analysis has no sound answer for. -/
  | unsupportedConstruct (analysis : AnalysisName) (stmt : StmtId) (construct : String)
  | missingPointsTo (analysis : AnalysisName)
  | backwardUnsupported
  | invalidProgram (fault : ProgramFault)
  | alreadyPublished (id : AnalysisId)
  | missingResult (id : AnalysisId)
  | config (error : ConfigError)
  /-- An identifier outside its table. -/
  | undeclared (kind : Kind) (index : Nat)
  /-- The budget of a repetition ran out. -/
  | notConverged
  deriving DecidableEq, Repr

namespace AnalysisError

def message : AnalysisError → String
  | unsupportedConstruct a s c =>
    a.text ++ ": unsupported construct '" ++ c ++ "' at " ++ s.text
  | missingPointsTo a => a.text ++ " requires pointer analysis result"
  | backwardUnsupported => "interprocedural does not support backward"
  | invalidProgram fault => "Invalid program: " ++ fault.message
  | alreadyPublished id => "Result for " ++ id.text ++ " already published"
  | missingResult id => "No result published for " ++ id.text
  | config e => "Configuration error: " ++ e.message
  | undeclared k i => k.mark ++ toString i ++ " is not declared"
  | notConverged => "no fixed point within the budget"

end AnalysisError

abbrev Outcome := Except AnalysisError

/-- The entry of a table that an identifier names. -/
def fetch {k : Kind} {α : Type} (table : Array α) (id : Id k) : Outcome α :=
  match table[id.index]? with
  | some x => .ok x
  | none => .error (.undeclared k id.index)

theorem fetch_eq_ok_iff {k : Kind} {α : Type} {table : Array α} {id : Id k} {x : α} :
    fetch table id = .ok x ↔ table[id.index]? = some x := by
  unfold fetch
  split <;> simp_all

theorem fetch_ok_of_lt {k : Kind} {α : Type} {table : Array α} {id : Id k}
    (h : id.index < table.size) : ∃ x, fetch table id = .ok x :=
  ⟨table[id.index], fetch_eq_ok_iff.2 (Array.getElem?_eq_getElem h)⟩

end ProgramFlow
