import ProgramFlow.Error
import ProgramFlow.Syntax.Instr
/-!
Whole programs: tables of classes, fields, methods, variables and statements, and the queries on
them. The statements of a method are numbered consecutively from its entry to its exit.
-/
namespace ProgramFlow

structure ClassDecl where
  name : String
  superclass : Option ClassId
  isInterface : Bool
  /-- The declared methods, one for each name. -/
  methods : List (String × MethodId)
  deriving DecidableEq, Repr

structure FieldDecl where
  name : String
  owner : ClassId
  ty : Ty
  isStatic : Bool
  deriving DecidableEq, Repr

structure VarDecl where
  name : String
  ty : Ty
  method : MethodId
  deriving DecidableEq, Repr

structure MethodDecl where
  name : String
  owner : ClassId
  isStatic : Bool
  isAbstract : Bool
  params : List VarId
  /-- The variable that holds the receiver in an instance method. -/
  receiver : Option VarId
  /-- The variables that the method returns, each once. -/
  returns : List VarId
  /-- The number of the entry statement. -/
  first : Nat
  /-- The number of statements between entry and exit. -/
  length : Nat
  deriving DecidableEq, Repr

/-- A statement of a method; the two ends of a method have no position in its body. -/
structure Stmt where
  method : MethodId
  position : Option Nat
  instr : Instr
  deriving DecidableEq, Repr

structure Program where
  classes : Array ClassDecl
  fields : Array FieldDecl
  methods : Array MethodDecl
  vars : Array VarDecl
  stmts : Array Stmt
  main : Option MethodId
  deriving DecidableEq, Repr

namespace ClassDecl

/-- Declares a method; an earlier one of the same name is replaced. -/
def declare (c : ClassDecl) (name : String) (m : MethodId) : ClassDecl :=
  { c with methods := c.methods.filter (·.1 ≠ name) ++ [(name, m)] }

def method? (c : ClassDecl) (name : String) : Option MethodId := c.methods.lookup name

end ClassDecl

namespace MethodDecl

def entry (m : MethodDecl) : StmtId := ⟨m.first⟩

def exit (m : MethodDecl) : StmtId := ⟨m.first + m.length + 1⟩

/-- The statement at a position of the body. -/
def stmtAt (m : MethodDecl) (i : Nat) : StmtId := ⟨m.first + 1 + i⟩

def stmtAt? (m : MethodDecl) (i : Nat) : Option StmtId :=
  if i < m.length then some (m.stmtAt i) else none

def body (m : MethodDecl) : List StmtId := (List.range m.length).map m.stmtAt

theorem mem_body {m : MethodDecl} {s : StmtId} : s ∈ m.body ↔ ∃ i < m.length, s = m.stmtAt i := by
  simp [body, eq_comm]

theorem stmtAt_injective {m : MethodDecl} {i j : Nat} (h : m.stmtAt i = m.stmtAt j) : i = j := by
  have := congrArg Id.index h
  simp only [stmtAt] at this
  omega

theorem nodup_body (m : MethodDecl) : m.body.Nodup :=
  List.Pairwise.map _ (fun _ _ h e => h (stmtAt_injective e)) List.nodup_range

theorem entry_not_mem_body (m : MethodDecl) : m.entry ∉ m.body := by
  intro h
  obtain ⟨i, _, h⟩ := mem_body.1 h
  have := congrArg Id.index h
  simp only [entry, stmtAt] at this
  omega

theorem exit_not_mem_body (m : MethodDecl) : m.exit ∉ m.body := by
  intro h
  obtain ⟨i, _, h⟩ := mem_body.1 h
  have := congrArg Id.index h
  simp only [exit, stmtAt] at this
  omega

theorem entry_ne_exit (m : MethodDecl) : m.entry ≠ m.exit := by
  intro h
  have := congrArg Id.index h
  simp only [entry, exit] at this
  omega

end MethodDecl

namespace Program

variable (p : Program)

def cls (c : ClassId) : Outcome ClassDecl := fetch p.classes c

def field (f : FieldId) : Outcome FieldDecl := fetch p.fields f

def method (m : MethodId) : Outcome MethodDecl := fetch p.methods m

def var (v : VarId) : Outcome VarDecl := fetch p.vars v

def stmt (s : StmtId) : Outcome Stmt := fetch p.stmts s

def instr (s : StmtId) : Outcome Instr := Stmt.instr <$> p.stmt s

def isIntVar (v : VarId) : Outcome Bool := (·.ty.holdsInt) <$> p.var v

def mainMethod : Outcome MethodId :=
  match p.main with
  | some m => .ok m
  | none => .error (.invalidProgram .noMain)

def bodyStmt? (m : MethodId) (i : Nat) : Outcome (Option StmtId) := (·.stmtAt? i) <$> p.method m

/-- The first class of that name. -/
def classNamed? (name : String) : Option ClassId :=
  (p.classes.findIdx? (·.name == name)).map Id.mk

def methodNamed? (owner name : String) : Option MethodId := do
  let c ← p.classNamed? owner
  let decl ← p.classes[c.index]?
  decl.method? name

/-- The first variable of that name in the method. -/
def varNamed? (m : MethodId) (name : String) : Option VarId :=
  (p.vars.findIdx? fun v => v.method == m && v.name == name).map Id.mk

/-- The statements with their identifiers, in order. -/
def numbered : List (StmtId × Stmt) := p.stmts.toList.zipIdx.map fun (s, i) => (⟨i⟩, s)

theorem mem_numbered {s : StmtId} {x : Stmt} : (s, x) ∈ p.numbered ↔ p.stmt s = .ok x := by
  obtain ⟨i⟩ := s
  simp only [numbered, stmt, fetch_eq_ok_iff, List.mem_map, Prod.exists, Prod.mk.injEq,
    Id.mk.injEq, List.mem_zipIdx_iff_getElem?, Array.getElem?_toList]
  constructor
  · rintro ⟨a, b, h, rfl, rfl⟩
    exact h
  · exact fun h => ⟨x, i, h, rfl, rfl⟩

/-- The loads of instance fields through `base`. -/
def fieldLoads (base : VarId) : List (StmtId × VarId × FieldId) :=
  p.numbered.filterMap fun (s, x) =>
    match x.instr with
    | .loadField lhs (.instance b f) => if b = base then some (s, lhs, f) else none
    | _ => none

/-- The stores to instance fields through `base`. -/
def fieldStores (base : VarId) : List (StmtId × FieldId × VarId) :=
  p.numbered.filterMap fun (s, x) =>
    match x.instr with
    | .storeField (.instance b f) rhs => if b = base then some (s, f, rhs) else none
    | _ => none

def arrayLoads (base : VarId) : List (StmtId × VarId) :=
  p.numbered.filterMap fun (s, x) =>
    match x.instr with
    | .loadArray lhs access => if access.base = base then some (s, lhs) else none
    | _ => none

def arrayStores (base : VarId) : List (StmtId × VarId) :=
  p.numbered.filterMap fun (s, x) =>
    match x.instr with
    | .storeArray access rhs => if access.base = base then some (s, rhs) else none
    | _ => none

/-- The calls with receiver `base`. -/
def callsOn (base : VarId) : List (StmtId × Call) :=
  p.numbered.filterMap fun (s, x) =>
    match x.instr with
    | .invoke call => if call.receiver = some base then some (s, call) else none
    | _ => none

end Program

end ProgramFlow
