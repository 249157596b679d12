import ProgramFlow.Document.Format
import ProgramFlow.Document.Json
/-!
Reading the values of a JSON document. Only what is looked at must be sound.
-/
namespace ProgramFlow.Json

def text? : Json → Option String
  | string s => some s
  | _ => none

def flag? : Json → Option Bool
  | bool b => some b
  | _ => none

/-- A natural number below the bound. -/
def below? (bound : Nat) : Json → Option Nat
  | int i => if 0 ≤ i ∧ i < bound then some i.toNat else none
  | _ => none

/-- The name of a variant stands alone, or as a name before null. -/
def choice? : Json → Option String
  | object [(name, null)] => some name
  | j => j.text?

/-- The value of the member of that name, if there is one; there may not be several. -/
def valueOf (members : List (String × Json)) (name : String) : Option (Option Json) :=
  match members.filter (·.1 == name) with
  | [] => some none
  | [(_, j)] => some (some j)
  | _ => none

def fieldsOf (names : List String) (required : Nat) : Json → Option (List (Option Json))
  | object members => names.mapM (valueOf members)
  | array items =>
    if required ≤ items.length ∧ items.length ≤ names.length then
      some (items.map some ++ List.replicate (names.length - items.length) none)
    else none
  | _ => none

/-- A variant inside `outside` other arrays or objects. All of it is looked at. -/
def labelled (outside : Nat) (label : String) (j : Json) : Option (String × VariantContent) :=
  if !j.isSound (maxDepth - outside) then none
  else
    match j with
    | object members => do
      let name ← (← valueOf members label) >>= text?
      let fields := members.filter (·.1 != label)
      return (name, .named (fields.map fun (k, v) => (.name k, v.below? UInt64.size)))
    | array (string name :: items) => some (name, .ordered (items.map (·.below? UInt64.size)))
    | _ => none

def present : Json → Option (Option Json)
  | null => some none
  | j => some (some j)

/-- A variant may stand three records deep. -/
def format : Format Json Option where
  fail := none
  text := text?
  flag := flag?
  natural := below?
  choice := choice?
  record := fieldsOf
  labelled := labelled 3
  present := present

end ProgramFlow.Json
