import ProgramFlow.Program.Basic
/-!
Finding the method that a call enters.
-/
namespace ProgramFlow.Program

variable (p : Program)

/-- The method of that name which `c` itself declares with a body. -/
def concrete? (c : ClassDecl) (name : String) : Outcome (Option MethodId) :=
  match c.method? name with
  | none => .ok none
  | some m => do
    let decl ← p.method m
    return if decl.isAbstract then none else some m

/-- Searches the class and its superclasses, at most `n` classes in all. -/
def dispatchWithin (name : String) : Nat → ClassId → Outcome (Option MethodId)
  | 0, _ => .ok none
  | n + 1, c => do
    let decl ← p.cls c
    match ← p.concrete? decl name with
    | some m => return some m
    | none =>
      match decl.superclass with
      | none => return none
      | some parent => dispatchWithin name n parent

/-- The nearest method with a body up the chain of superclasses. A chain longer than the number of
classes runs in a circle and holds no further method. -/
def dispatch (c : ClassId) (name : String) : Outcome (Option MethodId) :=
  p.dispatchWithin name (p.classes.size + 1) c

/-- Static and special calls are resolved at their declared class, the others at the class of the
receiver. -/
def resolve (receiverClass : Option ClassId) (call : Call) : Outcome (Option MethodId) :=
  match call.kind with
  | .static | .special => p.dispatch call.target.owner call.target.name
  | .virtual | .interface =>
    match receiverClass with
    | none => .ok none
    | some c => p.dispatch c call.target.name

end ProgramFlow.Program
