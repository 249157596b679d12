import ProgramFlow.Document.Syntax
import ProgramFlow.Program.Basic
/-!
Whole programs in documents: each row of a table with its number, and for each variable the
statements that access the heap through it.
-/
namespace ProgramFlow

/-- The two ends of a method have no position in its body; they are written with the greatest
position. -/
def positionJson (i : Option Nat) : Json := json (i.getD (UInt64.size - 1))

def Stmt.toJson (id : StmtId) (s : Stmt) : Json := .object
  [("id", json id), ("method", json s.method), ("index", positionJson s.position),
    ("kind", json s.instr)]

def ClassDecl.toJson (id : ClassId) (c : ClassDecl) : Json := .object
  [("id", json id), ("name", json c.name), ("superclass", json c.superclass),
    ("is_interface", json c.isInterface),
    ("methods", .object (c.methods.map fun (name, m) => (name, json m)))]

def FieldDecl.toJson (id : FieldId) (f : FieldDecl) : Json := .object
  [("id", json id), ("name", json f.name), ("class", json f.owner), ("ty", json f.ty),
    ("is_static", json f.isStatic)]

def MethodDecl.toJson (id : MethodId) (m : MethodDecl) : Json := .object
  [("id", json id), ("name", json m.name), ("class", json m.owner), ("is_static", json m.isStatic),
    ("is_abstract", json m.isAbstract), ("params", json m.params), ("this", json m.receiver),
    ("return_vars", json m.returns), ("entry", json m.entry), ("exit", json m.exit),
    ("body", json m.body)]

def VarDecl.toJson (id : VarId) (v : VarDecl) : Json := .object
  [("id", json id), ("name", json v.name), ("ty", json v.ty), ("method", json v.method)]

/-- The rows of a table, each written with its number. -/
def rowsJson {k : Kind} {α : Type} (table : Array α) (f : Id k → α → Json) : Json :=
  .array (table.toList.zipIdx.map fun (x, i) => f ⟨i⟩ x)

namespace Program

def accessesJson (p : Program) (v : VarId) : Json := .object
  [("store_fields", json ((p.fieldStores v).map (·.1))),
    ("load_fields", json ((p.fieldLoads v).map (·.1))),
    ("store_arrays", json ((p.arrayStores v).map (·.1))),
    ("load_arrays", json ((p.arrayLoads v).map (·.1))),
    ("invokes", json ((p.callsOn v).map (·.1)))]

def toJson (p : Program) : Json := .object
  [("classes", rowsJson p.classes ClassDecl.toJson), ("fields", rowsJson p.fields FieldDecl.toJson),
    ("methods", rowsJson p.methods MethodDecl.toJson), ("vars", rowsJson p.vars VarDecl.toJson),
    ("stmts", rowsJson p.stmts Stmt.toJson),
    ("relations", rowsJson p.vars fun v _ => p.accessesJson v), ("main", json p.main)]

end Program

end ProgramFlow
