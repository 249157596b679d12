import ProgramFlow.Document.Json
import ProgramFlow.Id
/-!
Reading values from JSON. A missing member counts as null, an unknown one is ignored, and of members
with one name the last counts.
-/
namespace ProgramFlow

class Decode (α : Type) where
  decode : Json → Option α

export Decode (decode)

namespace Json

def member (j : Json) (name : String) : Json :=
  match j with
  | object members => (members.reverse.lookup name).getD null
  | _ => null

def items? : Json → Option (List Json)
  | array items => some items
  | _ => none

def intBetween? (lo hi : Int) : Json → Option Int
  | int i => if lo ≤ i ∧ i ≤ hi then some i else none
  | _ => none

def natBelow? (bound : Nat) (j : Json) : Option Nat := Int.toNat <$> j.intBetween? 0 (bound - 1)

/-- The fields of a record, written by name or in order. -/
def record? (names : List String) : Json → Option (List Json)
  | array items => if items.length = names.length then some items else none
  | object members => some (names.map (object members |>.member))
  | _ => none

/-- The name of a variant, and its content if it has any. -/
def variant? : Json → Option (String × Option Json)
  | string name => some (name, none)
  | object ((name, content) :: members) =>
    if members.all (·.1 == name) then
      some (name, some (((name, content) :: members).reverse.lookup name |>.getD null))
    else none
  | _ => none

/-- The fields of a variant. Unlike those of a record they are written by name only. -/
def fields? : Json → Option Json
  | object members => some (object members)
  | _ => none

/-- A variant without content. -/
def unit? {α : Type} (a : α) : Option Json → Option α
  | none | some null => some a
  | _ => none

/-- One of the variants without content that a table names. -/
def named? {α : Type} (names : List (String × α)) (j : Json) : Option α := do
  let (name, content) ← j.variant?
  unit? (← names.lookup name) content

end Json

open Json (natBelow? intBetween?)

instance : Decode Json := ⟨some⟩

/-- Counts and positions have 64 bits. -/
instance : Decode Nat := ⟨natBelow? UInt64.size⟩

instance {k : Kind} : Decode (Id k) := ⟨fun j => Id.mk <$> j.natBelow? UInt32.size⟩
instance : Decode Int32 := ⟨fun j => Int32.ofInt <$> j.intBetween? Int32.minValue.toInt Int32.maxValue.toInt⟩
instance : Decode Int64 := ⟨fun j => Int64.ofInt <$> j.intBetween? Int64.minValue.toInt Int64.maxValue.toInt⟩

instance : Decode Bool := ⟨fun
  | .bool b => some b
  | _ => none⟩

instance : Decode String := ⟨fun
  | .string s => some s
  | _ => none⟩

instance {α : Type} [Decode α] : Decode (Option α) := ⟨fun
  | .null => some none
  | j => some <$> decode j⟩

instance {α : Type} [Decode α] : Decode (List α) := ⟨fun j => do (← j.items?).mapM decode⟩

instance {α β : Type} [Decode α] [Decode β] : Decode (α × β) := ⟨fun
  | .array [a, b] => return (← decode a, ← decode b)
  | _ => none⟩

namespace Json

variable {α β γ δ : Type} [Decode α] [Decode β] [Decode γ]

/-- A record of one field. -/
def one? (f : α → δ) (a : String) (j : Json) : Option δ :=
  match j.record? [a] with
  | some [x] => return f (← decode x)
  | _ => none

def two? (f : α → β → δ) (a b : String) (j : Json) : Option δ :=
  match j.record? [a, b] with
  | some [x, y] => return f (← decode x) (← decode y)
  | _ => none

def three? (f : α → β → γ → δ) (a b c : String) (j : Json) : Option δ :=
  match j.record? [a, b, c] with
  | some [x, y, z] => return f (← decode x) (← decode y) (← decode z)
  | _ => none

end Json

end ProgramFlow
