/-!
Reading records from documents in different formats.
-/
namespace ProgramFlow

/-- The key of an entry: the name of a field, its position, or neither. -/
inductive FieldKey
  | name (text : String)
  | position (index : Nat)
  | other
  deriving DecidableEq

/-- The content of a labelled variant with at most one field, which is a number. An entry has its
value if that is a number. -/
inductive VariantContent
  | named (entries : List (FieldKey × Option Nat))
  | ordered (items : List (Option Nat))

namespace VariantContent

def field? (content : VariantContent) (name : String) : Option Nat :=
  match content with
  | ordered [v] => v
  | ordered _ => none
  | named entries =>
    if entries.any (·.1 = .other) then none
    else
      match entries.filter fun (key, _) => key = .name name ∨ key = .position 0 with
      | [(_, v)] => v
      | _ => none

/-- Fields that the variant does not have may be named but not listed. -/
def allowsNone : VariantContent → Bool
  | named _ => true
  | ordered items => items.isEmpty

end VariantContent

/-- How the nodes of a format are read. -/
structure Format (ν : Type) (m : Type → Type) where
  /-- Gives up the whole document. -/
  fail : {α : Type} → m α
  text : ν → m String
  flag : ν → m Bool
  /-- A natural number below a bound. -/
  natural : (bound : Nat) → ν → m Nat
  /-- The name of a variant without content. -/
  choice : ν → m String
  /-- The values of the named fields, as far as they are given. Fields in order may be given without
  names if the format allows it; all but the first `required` may then be left out. -/
  record : (names : List String) → (required : Nat) → ν → m (List (Option ν))
  /-- A variant that names itself in a field or in its first item. -/
  labelled : (label : String) → ν → m (String × VariantContent)
  /-- The value itself, if it is not null. -/
  present : ν → m (Option ν)

namespace Format

variable {ν : Type} {m : Type → Type} [Monad m] {α : Type} (F : Format ν m)

/-- Reads a field that may be null or missing. -/
def optional (read : ν → m α) : Option ν → m (Option α)
  | none => pure none
  | some n => do
    match ← F.present n with
    | none => return none
    | some n => some <$> read n

def required (read : ν → m α) : Option ν → m α
  | none => F.fail
  | some n => read n

/-- The only field of a record. -/
def single (name : String) (read : ν → m α) (n : ν) : m α := do
  match ← F.record [name] 1 n with
  | [x] => F.required read x
  | _ => F.fail

end Format

end ProgramFlow
