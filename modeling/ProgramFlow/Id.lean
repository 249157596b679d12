/-!
Identifiers: a number together with the kind of thing it names.
-/
namespace ProgramFlow

/-- What an identifier names. A clone is a program element taken in one context. -/
inductive Kind
  | classDecl | field | method | variable | statement | object
  | context | objectClone | methodClone | callClone | pointer
  deriving DecidableEq, Repr

/-- The letters that open the written form of an identifier. -/
def Kind.mark : Kind → String
  | .classDecl => "class#"
  | .field => "field#"
  | .method => "method#"
  | .variable => "v"
  | .statement => "s"
  | .object => "o"
  | .context => "ctx"
  | .objectClone => "cso"
  | .methodClone => "csm"
  | .callClone => "cscs"
  | .pointer => "ptr"

@[ext] structure Id (k : Kind) where
  index : Nat
  deriving DecidableEq, Repr

abbrev ClassId := Id .classDecl
abbrev FieldId := Id .field
abbrev MethodId := Id .method
abbrev VarId := Id .variable
abbrev StmtId := Id .statement
abbrev ObjId := Id .object
abbrev ContextId := Id .context
abbrev ObjCloneId := Id .objectClone
abbrev MethodCloneId := Id .methodClone
abbrev CallCloneId := Id .callClone
abbrev PointerId := Id .pointer

namespace Id

variable {k : Kind}

/-- Identifiers are stored in 32 bits. -/
def ofIndex (i : Nat) : Id k := ⟨i % UInt32.size⟩

def text (a : Id k) : String := k.mark ++ toString a.index

instance : Inhabited (Id k) := ⟨⟨0⟩⟩

instance : LawfulBEq (Id k) := inferInstance

instance : Ord (Id k) := ⟨compareOn index⟩

instance : Std.TransOrd (Id k) :=
  inferInstanceAs (Std.TransCmp (compareOn fun a : Id k => a.index))

instance : Std.LawfulEqOrd (Id k) where
  compare_self {a} := Std.ReflOrd.compare_self (α := Nat) (a := a.index)
  eq_of_compare {a b} h := by
    cases a
    cases b
    congr 1
    exact Std.LawfulEqOrd.eq_of_compare (α := Nat) h

end Id

end ProgramFlow
