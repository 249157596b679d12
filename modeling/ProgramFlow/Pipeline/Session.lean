import ProgramFlow.Error
/-!
Sessions keep the results of a run. Each is published once under its key and never changes.
-/
namespace ProgramFlow

/-- Published results in the order of their publication. -/
structure Session (ρ : Type) where
  results : List (AnalysisId × ρ) := []

namespace Session

variable {ρ : Type} (s : Session ρ)

def empty : Session ρ := {}

def published : List AnalysisId := s.results.map Prod.fst

def size : Nat := s.results.length

def isEmpty : Bool := s.results.isEmpty

def contains (id : AnalysisId) : Bool := id ∈ s.published

/-- The result under a key, if it is of the kind that `view` shows. -/
def get? {α : Type} (view : ρ → Option α) (id : AnalysisId) : Option α :=
  (s.results.lookup id).bind view

def result {α : Type} (view : ρ → Option α) (id : AnalysisId) : Outcome α :=
  match s.get? view id with
  | some a => .ok a
  | none => .error (.missingResult id)

def publish (id : AnalysisId) (r : ρ) : Outcome (Session ρ) :=
  if s.contains id then .error (.alreadyPublished id)
  else .ok { results := s.results ++ [(id, r)] }

def publishAll (rs : List (AnalysisId × ρ)) : Outcome (Session ρ) :=
  rs.foldlM (fun s (id, r) => s.publish id r) s

def debugText : String :=
  "AnalysisSession \x7b published: [" ++
    ", ".intercalate (s.published.map AnalysisId.debugText) ++ "] \x7d"

end Session

end ProgramFlow
