import ProgramFlow.Document.Json
import ProgramFlow.Collection.SortedSet
import ProgramFlow.Id
/-!
Writing values as JSON. A record is an object with a member for each field; a variant is its name,
or an object with its name around its content.
-/
namespace ProgramFlow

namespace Json

def hexDigit (n : Nat) : Char := Char.ofNat (if n < 10 then '0'.toNat + n else 'a'.toNat - 10 + n)

/-- Quotes, backslashes and control characters are escaped. -/
def escape (c : Char) : List Char :=
  if c == '"' || c == '\\' then ['\\', c]
  else if c.toNat < 0x20 then ['\\', 'u', '0', '0', hexDigit (c.toNat / 16), hexDigit (c.toNat % 16)]
  else [c]

def quote (s : String) : String := "\"" ++ String.ofList (s.toList.flatMap escape) ++ "\""

mutual

/-- The text of a value. A number that is not an integer has none and is written as null. -/
def text : Json → String
  | null | decimal | garbled => "null"
  | bool b => if b then "true" else "false"
  | int i => toString i
  | string s => quote s
  | array items => "[" ++ ",".intercalate (itemTexts items) ++ "]"
  | object members => "\x7b" ++ ",".intercalate (memberTexts members) ++ "\x7d"

def itemTexts : List Json → List String
  | [] => []
  | v :: items => v.text :: itemTexts items

def memberTexts : List (String × Json) → List String
  | [] => []
  | (k, v) :: members => (quote k ++ ":" ++ v.text) :: memberTexts members

end

end Json

class Encode (α : Type) where
  json : α → Json

export Encode (json)

instance : Encode Json := ⟨id⟩
instance : Encode Nat := ⟨fun n => .int n⟩
instance : Encode Bool := ⟨.bool⟩
instance : Encode String := ⟨.string⟩
instance : Encode Int32 := ⟨fun c => .int c.toInt⟩
instance : Encode Int64 := ⟨fun c => .int c.toInt⟩
instance {k : Kind} : Encode (Id k) := ⟨fun a => .int a.index⟩
instance {α : Type} [Encode α] : Encode (Option α) := ⟨fun x => x.elim .null json⟩
instance {α : Type} [Encode α] : Encode (List α) := ⟨fun xs => .array (xs.map json)⟩
instance {α : Type} [Ord α] [Encode α] : Encode (SortedSet α) := ⟨fun s => json s.toList⟩

instance {α β : Type} [Encode α] [Encode β] : Encode (α × β) :=
  ⟨fun (a, b) => .array [json a, json b]⟩

namespace Json

/-- A variant around its content. -/
def variant {α : Type} [Encode α] (name : String) (content : α) : Json :=
  .object [(name, json content)]

/-- A variant around the fields of a record. -/
def fields (name : String) (members : List (String × Json)) : Json := .object [(name, .object members)]

/-- The name that a table gives to a value. -/
def nameIn {α : Type} [BEq α] (names : List (String × α)) (a : α) : Json :=
  json ((names.find? (·.2 == a)).map Prod.fst)

end Json

end ProgramFlow
