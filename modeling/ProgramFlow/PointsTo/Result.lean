import ProgramFlow.Collection.SortedMap
import ProgramFlow.PointsTo.Solver
/-!
What a points-to analysis found. Most questions are asked without contexts; their answers unite
those of all contexts and are made when the analysis ends.
-/
namespace ProgramFlow.PointsTo

/-- Pairs that compare equal have equal parts. -/
theorem eq_of_compareLex {α β γ : Type} [Ord β] [Ord γ] [Std.LawfulEqOrd β] [Std.LawfulEqOrd γ]
    {f : α → β} {g : α → γ} {a b : α}
    (h : compareLex (compareOn f) (compareOn g) a b = .eq) : f a = f b ∧ g a = g b := by
  obtain ⟨hf, hg⟩ := compareLex_eq_eq.1 h
  exact ⟨Std.LawfulEqOrd.eq_of_compare hf, Std.LawfulEqOrd.eq_of_compare hg⟩

/-- A call from a statement to a method, in whatever context. -/
structure CallPair where
  site : StmtId
  callee : MethodId
  deriving DecidableEq, Repr

namespace CallPair

instance : Ord CallPair := ⟨compareLex (compareOn site) (compareOn callee)⟩

instance : Std.TransOrd CallPair :=
  inferInstanceAs (Std.TransCmp (compareLex (compareOn site) (compareOn callee)))

instance : Std.LawfulEqOrd CallPair where
  compare_self := Std.ReflOrd.compare_self
  eq_of_compare {a b} h := by
    obtain ⟨hs, hc⟩ := eq_of_compareLex h
    cases a
    cases b
    cases hs
    cases hc
    rfl

end CallPair

/-- A field of an object, in whatever heap context. -/
structure ObjField where
  base : ObjId
  field : FieldId
  deriving DecidableEq, Repr

namespace ObjField

instance : Ord ObjField := ⟨compareLex (compareOn base) (compareOn field)⟩

instance : Std.TransOrd ObjField :=
  inferInstanceAs (Std.TransCmp (compareLex (compareOn base) (compareOn field)))

instance : Std.LawfulEqOrd ObjField where
  compare_self := Std.ReflOrd.compare_self
  eq_of_compare {a b} h := by
    obtain ⟨hb, hf⟩ := eq_of_compareLex h
    cases a
    cases b
    cases hb
    cases hf
    rfl

end ObjField

/-- What holds objects when contexts are left out. -/
inductive Holder
  | var (v : VarId)
  | staticField (f : FieldId)
  | instanceField (x : ObjField)
  | arrayElement (base : ObjId)
  deriving DecidableEq, Repr

/-- The objects of each variable, field and array in all contexts together. -/
structure Holdings where
  vars : SortedMap VarId (SortedSet ObjId) := ∅
  staticFields : SortedMap FieldId (SortedSet ObjId) := ∅
  instanceFields : SortedMap ObjField (SortedSet ObjId) := ∅
  arrays : SortedMap ObjId (SortedSet ObjId) := ∅

namespace Holdings

variable (h : Holdings)

def objects : Holder → SortedSet ObjId
  | .var v => (h.vars.find? v).getD ∅
  | .staticField f => (h.staticFields.find? f).getD ∅
  | .instanceField x => (h.instanceFields.find? x).getD ∅
  | .arrayElement o => (h.arrays.find? o).getD ∅

def unite (objs : SortedSet ObjId) : Holder → Holdings
  | .var v => { h with vars := h.vars.update v ∅ (·.union objs) }
  | .staticField f => { h with staticFields := h.staticFields.update f ∅ (·.union objs) }
  | .instanceField x => { h with instanceFields := h.instanceFields.update x ∅ (·.union objs) }
  | .arrayElement o => { h with arrays := h.arrays.update o ∅ (·.union objs) }

/-- Only the holder that gets objects has others than before. -/
theorem objects_unite (objs : SortedSet ObjId) (a b : Holder) :
    (h.unite objs a).objects b = if b = a then (h.objects a).union objs else h.objects b := by
  cases a <;> cases b <;> simp [unite, objects, SortedMap.getD_find?_update]

end Holdings

/-- A call edge with its contexts spelled out. -/
structure ContextCall where
  kind : CallKind
  site : StmtId
  caller : MethodId
  callerContext : Context
  callee : MethodId
  calleeContext : Context
  deriving DecidableEq, Repr

structure Statistics where
  reachableMethods : Nat
  callEdges : Nat
  pointers : Nat
  flowEdges : Nat
  objects : Nat
  objClones : Nat
  contexts : Nat
  propagations : Nat
  unresolvedCalls : Nat
  deriving DecidableEq, Repr

namespace Elements

variable (e : Elements)

/-- The object that a clone is a clone of. -/
def objectOf (o : ObjCloneId) : Outcome ObjId := return (← e.objects.row o).obj

def methodOf (m : MethodCloneId) : Outcome MethodId := return (← e.methods.row m).method

def holder : Pointer → Outcome Holder
  | .var _ v => return .var v
  | .staticField f => return .staticField f
  | .instanceField o f => return .instanceField ⟨← e.objectOf o, f⟩
  | .arrayElement o => return .arrayElement (← e.objectOf o)

/-- Adds the objects of a pointer to those of its holder. A pointer to nothing leaves no entry. -/
def gather (h : Holdings) (row : Pointer × ObjSet) : Outcome Holdings := do
  let (pointer, clones) := row
  if clones.isEmpty then return h
  let objs ← clones.toList.mapM e.objectOf
  return h.unite (.ofList objs) (← e.holder pointer)

def holdings : Outcome Holdings := e.pointers.rows.foldlM e.gather {}

def contextCall (edge : CallEdge) : Outcome ContextCall := do
  let site ← e.callSites.row edge.site
  let caller ← e.methods.row site.container
  let callee ← e.methods.row edge.callee
  return {
    kind := edge.kind
    site := site.site
    caller := caller.method
    callerContext := ← e.contexts.row site.context
    callee := callee.method
    calleeContext := ← e.contexts.row callee.context }

end Elements

/-- What is read off the tables of a state once, so that no question can miss a row of them. -/
structure Tables where
  holdings : Holdings
  /-- The call edges in the order of their discovery. -/
  contextCalls : List ContextCall
  reachable : List MethodId
  entries : List MethodId

def State.tables (s : State) : Outcome Tables := do
  return {
    holdings := ← s.elements.holdings
    contextCalls := ← s.calls.edges.toList.mapM s.elements.contextCall
    reachable := ← s.calls.reachable.toList.mapM s.elements.methodOf
    entries := ← s.calls.entries.toList.mapM s.elements.methodOf }

structure Result where
  sensitivity : Sensitivity
  state : State
  tables : Tables
  read : state.tables = .ok tables

namespace Result

/-- The result at a state. A number without a row is an error. -/
def ofState (σ : Sensitivity) (s : State) : Outcome Result :=
  match h : s.tables with
  | .ok tables => .ok ⟨σ, s, tables, h⟩
  | .error e => .error e

theorem ofState_eq_ok_iff {σ : Sensitivity} {s : State} {r : Result} :
    ofState σ s = .ok r ↔ r.sensitivity = σ ∧ r.state = s := by
  constructor
  · intro h
    unfold ofState at h
    split at h
    · cases h
      exact ⟨rfl, rfl⟩
    · cases h
  · intro h
    obtain ⟨rfl, rfl⟩ := h
    obtain ⟨σ, s, tables, hread⟩ := r
    unfold ofState
    split
    · next h =>
      cases h.symm.trans hread
      rfl
    · next h => cases h.symm.trans hread

variable (r : Result)

def objects (a : Holder) : SortedSet ObjId := r.tables.holdings.objects a

def pointsTo (v : VarId) : SortedSet ObjId := r.objects (.var v)

def staticFieldPointsTo (f : FieldId) : SortedSet ObjId := r.objects (.staticField f)

def instanceFieldPointsTo (base : ObjId) (f : FieldId) : SortedSet ObjId :=
  r.objects (.instanceField ⟨base, f⟩)

def arrayPointsTo (base : ObjId) : SortedSet ObjId := r.objects (.arrayElement base)

/-- The variables may point to a common object. -/
def mayAlias (a b : VarId) : Bool := (r.pointsTo a).intersects (r.pointsTo b)

/-- The objects of a variable in one context, with their heap contexts. -/
def contextPointsTo (c : Context) (v : VarId) : List (Context × ObjId) :=
  let e := r.state.elements
  let objs := do
    let context ← e.contexts.find? c
    let pointer ← e.pointers.find? (.var context v)
    return e.objectsOf pointer
  (objs.getD ∅).toList.filterMap fun o => do
    let clone ← e.objects.get? o
    return (← e.contexts.get? clone.context, clone.obj)

/-- The contexts in which the variable was met, in order. -/
def contextsOf (v : VarId) : List Context :=
  r.state.elements.pointers.rows.filterMap fun (pointer, _) =>
    match pointer with
    | .var c w => if w = v then r.state.elements.contexts.get? c else none
    | _ => none

def contextCalls : List ContextCall := r.tables.contextCalls

def calls : SortedSet CallPair := .ofList (r.contextCalls.map fun c => ⟨c.site, c.callee⟩)

def calleesOf (site : StmtId) : List MethodId :=
  (r.calls.filter (·.site = site)).toList.map (·.callee)

def reachableMethods : SortedSet MethodId := .ofList r.tables.reachable

def entryMethods : List MethodId := r.tables.entries

def statistics : Statistics where
  reachableMethods := r.state.calls.reachable.size
  callEdges := r.state.calls.edges.size
  pointers := r.state.elements.pointers.size
  flowEdges := r.state.flow.edgeCount
  objects := r.state.heap.size
  objClones := r.state.elements.objects.size
  contexts := r.state.elements.contexts.size
  propagations := r.state.propagations
  unresolvedCalls := r.state.unresolved

end Result

/-- Analyses the program from a fresh state, at a valid depth of contexts. -/
def analyze (p : Program) (σ : Sensitivity) : Outcome Result := do
  σ.validate.mapError .config
  let (outcome, state) := (solve p σ).run .initial
  outcome
  Result.ofState σ state

end ProgramFlow.PointsTo
