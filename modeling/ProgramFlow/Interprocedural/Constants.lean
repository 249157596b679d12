import ProgramFlow.Constants.Propagation
import ProgramFlow.Interprocedural.Aliases
import ProgramFlow.Interprocedural.Problem
/-!
Constant propagation through calls: arguments become parameters, returned values become results,
and a caller keeps its other variables. With aliases, a load from the heap merges what the stores
that may have written there store.
-/
namespace ProgramFlow.Interprocedural

variable (p : Program) (a : Option Aliases)

/-- Arguments as the callee sees them in its integer parameters. -/
def passArguments (args params : List VarId) (f : Fact) : Outcome Fact :=
  (args.zip params).foldlM
    (fun g (arg, param) => do
      return if ← p.isIntVar param then g.set param (f.get arg) else g)
    ∅

/-- The merged value of the returned variables, as the caller sees it in an integer result. -/
def passResult (returns : List VarId) (result : Option VarId) (f : Fact) : Outcome Fact :=
  match result with
  | none => .ok ∅
  | some v => do
    if ← p.isIntVar v then
      return Fact.set ∅ v (returns.foldl (fun x w => x.merge (f.get w)) .undef)
    else
      return ∅

/-- The facts of a caller past a call: all but its result. -/
def passCall (site : StmtId) (f : Fact) : Outcome Fact := do
  return match (← p.instr site).assigned? with
    | some v => f.set v .undef
    | none => f

def transferLink (link : Link) (f : Fact) : Outcome Fact :=
  match link.kind with
  | .normal => .ok f
  | .callToReturn => passCall p link.source f
  | .call _ args params => passArguments p args params f
  | .ret _ _ returns result => passResult p returns result f

/-- The indices of a load and a store allow them to touch the same element. -/
def indicesMayMatch (load store : Instr) (f g : Fact) : Bool :=
  match load, store with
  | .loadArray _ l, .storeArray s _ => (f.get l.index).mayEqual (g.get s.index)
  | _, _ => true

/-- The variable that a store writes to the heap. -/
def storedVar? : Instr → Option VarId
  | .storeField _ rhs | .storeArray _ rhs => some rhs
  | _ => none

/-- What a load may read: the values of its stores, merged. -/
def loadValue (a : Aliases) (arriving : SortedMap StmtId Fact) (n : StmtId) (load : Instr)
    (f : Fact) : Outcome Value :=
  let addStore (x : Value) (s : StmtId) : Outcome Value :=
    match arriving.find? s with
    | none => .ok x
    | some g => do
      let store ← p.instr s
      return match storedVar? store with
        | some rhs => if indicesMayMatch load store f g then x.merge (g.get rhs) else x
        | none => x
  List.foldlM addStore Value.undef (a.storesFor n)

/-- The variable that a load from the heap assigns. -/
def loadedVar? : Instr → Option VarId
  | .loadField lhs _ | .loadArray lhs _ => some lhs
  | _ => none

def transferPlain (n : StmtId) (i : Instr) (f : Fact) : Outcome Fact := do
  return f.assign (← p.assignment? n i f)

def transferNode (arriving : SortedMap StmtId Fact) (n : StmtId) (f : Fact) : Outcome Fact := do
  let i ← p.instr n
  if i.isInvoke then
    return f
  match a, loadedVar? i with
  | some a, some lhs =>
    if ← p.isIntVar lhs then
      return f.set lhs (← loadValue p a arriving n i f)
    else
      transferPlain p n i f
  | _, _ => transferPlain p n i f

def constantPropagation : Problem Fact where
  direction := .forward
  boundary := p.parameterFact
  start := ∅
  merge := Fact.merge
  transferLink := transferLink p
  transferNode := transferNode p a
  readers n := a.elim [] (·.loadsFor n)
  height := 2 * p.vars.size

/-- The aliases that constant propagation uses; if it is to use any, it needs to know what the
variables point to. -/
def aliasesFor (g : Supergraph) (aliasAware : Bool) (r : Option PointsTo.Result) :
    Outcome (Option Aliases) :=
  if aliasAware then
    match r with
    | some r => some <$> aliases p g r
    | none => .error (.missingPointsTo .interConstants)
  else .ok none

end ProgramFlow.Interprocedural
