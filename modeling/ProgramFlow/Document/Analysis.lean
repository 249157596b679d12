import ProgramFlow.Document.Syntax
import ProgramFlow.Pipeline.Run
/-!
Graphs, settings and the results of analyses in documents.
-/
namespace ProgramFlow

open Json (fields named? nameIn three? two? unit? variant)

instance : Encode Dataflow.Schedule := ⟨nameIn Dataflow.Schedule.names⟩
instance : Decode Dataflow.Schedule := ⟨named? Dataflow.Schedule.names⟩

instance : Encode Preset := ⟨fun p => json p.text⟩
instance : Decode Preset := ⟨named? (Preset.all.map fun p => (p.text, p))⟩

instance : Encode InterSettings :=
  ⟨fun s => .object [("enabled", json s.enabled), ("alias_aware", json s.aliasAware)]⟩

instance : Encode EdgeKind := ⟨fun
  | .entry => .string "Entry"
  | .fallThrough => .string "FallThrough"
  | .goto => .string "Goto"
  | .ifTrue => .string "IfTrue"
  | .ifFalse => .string "IfFalse"
  | .switchCase c => variant "SwitchCase" c
  | .switchDefault => .string "SwitchDefault"
  | .ret => .string "Return"⟩

instance : Decode EdgeKind := ⟨fun j => do
  match ← j.variant? with
  | ("Entry", c) => unit? .entry c
  | ("FallThrough", c) => unit? .fallThrough c
  | ("Goto", c) => unit? .goto c
  | ("IfTrue", c) => unit? .ifTrue c
  | ("IfFalse", c) => unit? .ifFalse c
  | ("SwitchCase", some c) => .switchCase <$> decode c
  | ("SwitchDefault", c) => unit? .switchDefault c
  | ("Return", c) => unit? .ret c
  | _ => none⟩

instance : Encode Edge := ⟨fun e => .object
  [("kind", json e.kind), ("source", json e.source), ("target", json e.target)]⟩

instance : Decode Edge := ⟨three? Edge.mk "kind" "source" "target"⟩

instance : Encode LinkKind := ⟨fun
  | .normal => .string "Normal"
  | .callToReturn => .string "CallToReturn"
  | .call callee args params =>
    fields "Call" [("callee", json callee), ("args", json args), ("params", json params)]
  | .ret site callee returns result => fields "Return"
    [("call_site", json site), ("callee", json callee), ("return_vars", json returns),
      ("result", json result)]⟩

instance : Encode Dataflow.Counters := ⟨fun c => .object
  [("iterations", json c.iterations), ("transfers", json c.transfers), ("changes", json c.changes)]⟩

namespace Dataflow.Table

variable {φ : Type}

/-- A row for each of the given nodes: the facts before and after it. -/
def toJson [Encode φ] (d : Direction) (nodes : List StmtId) (t : Table φ) : Json :=
  .array (nodes.map fun n =>
    .array [json n, json ((t.before d).find? n), json ((t.after d).find? n)])

def ofJson? [Decode φ] (d : Direction) (j : Json) : Option (Table φ) := do
  let rows ← (← j.items?).mapM fun row => do
    match ← row.items? with
    | [n, before, after] =>
      let n : StmtId ← decode n
      let before : Option φ ← decode before
      let after : Option φ ← decode after
      return (before.map (n, ·), after.map (n, ·))
    | _ => none
  return .ofFacts d (.ofList (rows.filterMap (·.1))) (.ofList (rows.filterMap (·.2)))

end Dataflow.Table

instance : Encode AnalysisId := ⟨fun
  | .pointsTo => .string "PointerAnalysis"
  | .cfg m => variant "Cfg" m
  | .constants m => variant "ConstantPropagation" m
  | .liveness m => variant "LiveVariables" m
  | .deadCode m => variant "DeadCode" m
  | .supergraph => .string "Icfg"
  | .interConstants => .string "InterConstantPropagation"⟩

instance : Decode AnalysisId := ⟨fun j => do
  match ← j.variant? with
  | ("PointerAnalysis", c) => unit? .pointsTo c
  | ("Cfg", some m) => .cfg <$> decode m
  | ("ConstantPropagation", some m) => .constants <$> decode m
  | ("LiveVariables", some m) => .liveness <$> decode m
  | ("DeadCode", some m) => .deadCode <$> decode m
  | ("Icfg", c) => unit? .supergraph c
  | ("InterConstantPropagation", c) => unit? .interConstants c
  | _ => none⟩

instance : Encode DeadCodeReport := ⟨fun r => .object
  [("method", json r.method), ("dead", json r.dead), ("unreachable", json r.unreachable),
    ("useless", json r.useless)]⟩

instance : Decode DeadCodeReport := ⟨fun j => do
  match ← j.record? ["method", "dead", "unreachable", "useless"] with
  | [method, dead, unreachable, useless] =>
    return ⟨← decode method, ← decode dead, ← decode unreachable, ← decode useless⟩
  | _ => none⟩

namespace Value

/-- A value as a variant, as it stands in documents. -/
def toJson : Value → Json
  | undef => .string "Undef"
  | constant c => variant "Constant" c
  | nac => .string "Nac"

def ofJson? (j : Json) : Option Value := do
  match ← j.variant? with
  | ("Undef", c) => unit? undef c
  | ("Constant", some c) => constant <$> decode c
  | ("Nac", c) => unit? nac c
  | _ => none

end Value

namespace PointsTo

instance : Encode Sensitivity := ⟨fun σ =>
  .object (("kind", json σ.kind) :: σ.depth?.toList.map fun k => ("k", json k))⟩

instance : Decode Sensitivity := ⟨fun
  | .object members => do
    let kind : String ← decode ((Json.object members).member "kind")
    Sensitivity.ofKind? kind (decode ((Json.object members).member "k"))
  | .array [.string "insensitive"] => some .insensitive
  | .array [.string kind, k] => do
    if kind = "insensitive" then none else Sensitivity.ofKind? kind (decode k)
  | _ => none⟩

instance : Encode ContextElement := ⟨fun
  | .callSite s => variant "CallSite" s
  | .object o => variant "Object" o
  | .type c => variant "Type" c⟩

instance : Decode ContextElement := ⟨fun j => do
  match ← j.variant? with
  | ("CallSite", some s) => .callSite <$> decode s
  | ("Object", some o) => .object <$> decode o
  | ("Type", some c) => .type <$> decode c
  | _ => none⟩

instance : Encode Context := ⟨fun c => .object [("elements", json c.elements)]⟩
instance : Decode Context := ⟨Json.one? Context.mk "elements"⟩

instance : Encode Pointer := ⟨fun
  | .var c v => fields "Var" [("context", json c), ("var", json v)]
  | .staticField f => variant "StaticField" f
  | .instanceField o f => fields "InstanceField" [("base", json o), ("field", json f)]
  | .arrayElement o => variant "ArrayIndex" o⟩

instance : Decode Pointer := ⟨fun j => do
  match ← j.variant? with
  | ("Var", some c) => two? Pointer.var "context" "var" (← c.fields?)
  | ("StaticField", some f) => .staticField <$> decode f
  | ("InstanceField", some c) => two? Pointer.instanceField "base" "field" (← c.fields?)
  | ("ArrayIndex", some o) => .arrayElement <$> decode o
  | _ => none⟩

instance : Encode (ObjId × Obj) := ⟨fun (id, o) => .object
  [("id", json id), ("alloc_site", json o.site), ("ty", json o.ty), ("container", json o.container),
    ("container_class", json o.owner)]⟩

instance : Decode (ObjId × Obj) := ⟨fun j => do
  match ← j.record? ["id", "alloc_site", "ty", "container", "container_class"] with
  | [id, site, ty, container, owner] =>
    return (← decode id, ⟨← decode site, ← decode ty, ← decode container, ← decode owner⟩)
  | _ => none⟩

instance : Encode CallEdge := ⟨fun e => .object
  [("kind", json e.kind), ("call_site", json e.site), ("callee", json e.callee)]⟩

instance : Encode Statistics := ⟨fun s => .object
  [("reachable_methods", json s.reachableMethods), ("call_edges", json s.callEdges),
    ("pointers", json s.pointers), ("pfg_edges", json s.flowEdges), ("objects", json s.objects),
    ("cs_objects", json s.objClones), ("contexts", json s.contexts),
    ("propagations", json s.propagations), ("unresolved_calls", json s.unresolvedCalls)]⟩

end PointsTo

instance : Encode Pipeline.Summary := ⟨fun s => .object
  [("preset", json s.preset), ("context", json s.context),
    ("reachable_methods", json s.reachableMethods), ("call_edges", json s.callEdges),
    ("methods_analyzed", json s.methodsAnalyzed), ("dead_statements", json s.deadStatements),
    ("icfg_nodes", json s.nodes), ("icfg_edges", json s.links),
    ("inter_constprop", json s.interConstants), ("alias_aware", json s.aliasAware)]⟩

end ProgramFlow
