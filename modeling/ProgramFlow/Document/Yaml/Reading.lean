import ProgramFlow.Document.Format
import ProgramFlow.Document.Yaml.Meaning
import ProgramFlow.Document.Yaml.Node
/-!
Reading the nodes of a YAML document. Aliases are followed where a value is looked at, but only so
often, and values may only be so deep.
-/
namespace ProgramFlow.Yaml

/-- Readings that count how many aliases may still be followed. -/
abbrev Reading := StateT Nat Option

/-- What an unlabelled value is seen as. -/
inductive Datum
  | natural (n : Nat)
  | negative (n : Nat)
  | text (s : String)
  | other

namespace Datum

def ofMeaning (s : String) : Meaning → Option Datum
  | .natural n => some (natural n)
  | .negative n => some (negative n)
  | .wide => none
  | .text => some (text s)
  | .null | .flag _ | .float => some other

/-- What a scalar with a tag is seen as; a local tag makes it a variant, which is none. -/
def ofTagged (tag : Tag) (style : Style) (s : String) : Option Datum :=
  if tag.localName?.isSome then none
  else if tag = Tag.core "bool" then (fun _ => other) <$> Meaning.flag? s
  else if tag = Tag.core "int" then Meaning.integer? s.toList >>= ofMeaning s
  else if tag = Tag.core "float" then if Meaning.isFloatText s then some other else none
  else if tag = Tag.core "null" then if Meaning.isNull s then some other else none
  else if tag.isLocal && style = .plain then ofMeaning s (.ofPlain s)
  else some (text s)

def ofScalar (tag : Option Tag) (style : Style) (s : String) : Option Datum :=
  match tag with
  | some tag => ofTagged tag style s
  | none => if style = .plain then ofMeaning s (.ofPlain s) else some (text s)

/-- A number with 64 bits. -/
def number? : Datum → Option Nat
  | natural n | negative n@0 => some n
  | _ => none

def key : Datum → FieldKey
  | natural n => .position n
  | text s => .name s
  | _ => .other

end Datum

/-- A plain scalar, or a literal one with the tag of its value, may have a value. -/
def mayMean (value : String) (tag : Option Tag) (style : Style) : Bool :=
  style = .plain || (style = .literal && tag = some (Tag.core value))

namespace Document

variable (d : Document)

/-- The node that an alias refers to; any other node is itself. -/
def follow (n : Node) : Reading Node := do
  match n with
  | .alias number =>
    let left ← get
    if left = 0 then failure
    set (left - 1)
    (d.anchored[number]? : Option Node)
  | n => return n

def text (n : Node) : Reading String := do
  match ← d.follow n with
  | .scalar _ _ s => return s
  | _ => failure

def flag (n : Node) : Reading Bool := do
  match ← d.follow n with
  | .scalar tag style s => if mayMean "bool" tag style then Meaning.flag? s else failure
  | _ => failure

def natural (bound : Nat) (n : Node) : Reading Nat := do
  match ← d.follow n with
  | .scalar tag style s =>
    if mayMean "int" tag style then
      match Meaning.integer? s.toList with
      | some (.natural n) => if n < bound then return n else failure
      | _ => failure
    else failure
  | _ => failure

/-- The name of a variant is a local tag of nothing, or else a text. -/
def choice (n : Node) : Reading String := do
  match ← d.follow n with
  | .scalar tag style s =>
    match tag.bind Tag.localName? with
    | some name =>
      if style = .plain && (s.isEmpty || Meaning.isNull s) then return name else failure
    | none => return s
  | _ => failure

/-- A value that is not null; a tag makes it one, unless it is the tag of null. -/
def present (n : Node) : Reading (Option Node) := do
  match ← d.follow n with
  | .scalar tag .plain s =>
    match tag with
    | some t =>
      if t ≠ Tag.core "null" then return some (.scalar tag .plain s)
      else if Meaning.isNull s then return none
      else failure
    | none =>
      if s.isEmpty || Meaning.isNull s then return none else return some (.scalar tag .plain s)
  | n => return some n

/-- The value of the entry with that key, if there is one; there may not be several. -/
def valueOf (entries : List (String × Node)) (name : String) : Option (Option Node) :=
  match entries.filter (·.1 == name) with
  | [] => some none
  | [(_, n)] => some (some n)
  | _ => none

/-- The fields of a record are written by name only. Nothing at all may stand for no fields. -/
def record (names : List String) (n : Node) : Reading (List (Option Node)) := do
  match ← d.follow n with
  | .mapping _ entries =>
    let entries ← entries.mapM fun (k, v) => return (← d.text k, v)
    names.mapM fun name => (valueOf entries name : Option (Option Node))
  | .scalar _ .plain "" => return names.map fun _ => none
  | _ => failure

/-- How deep collections may be inside each other. -/
def maxDepth : Nat := 128

/-- Looks at a value with at most `depth` collections inside each other. -/
def datum : (depth : Nat) → Node → Reading Datum
  | depth, n => do
    match ← d.follow n with
    | .alias _ => failure
    | .scalar tag style s => (Datum.ofScalar tag style s : Option Datum)
    | .sequence tag items =>
      match depth with
      | 0 => failure
      | depth + 1 =>
        if (tag.bind Tag.localName?).isSome then failure
        items.forM fun n => discard (datum depth n)
        return .other
    | .mapping tag entries =>
      match depth with
      | 0 => failure
      | depth + 1 =>
        if (tag.bind Tag.localName?).isSome then failure
        entries.forM fun (k, v) => do
          discard (datum depth k)
          discard (datum depth v)
        return .other

/-- The entries of a variant: the labels, and what the others are seen as. -/
def variantEntries (depth : Nat) (label : String) (entries : List (Node × Node)) :
    Reading (List String × List (FieldKey × Option Nat)) := do
  let mut labels := []
  let mut fields := []
  for (k, v) in entries do
    let key := (← d.datum depth k).key
    if key = .name label then
      labels := (← d.text v) :: labels
    else
      fields := (key, (← d.datum depth v).number?) :: fields
  return (labels, fields.reverse)

/-- A variant inside `outside` other collections. -/
def labelled (outside : Nat) (label : String) (n : Node) : Reading (String × VariantContent) := do
  let depth := maxDepth - outside - 1
  match ← d.follow n with
  | .mapping tag entries =>
    if (tag.bind Tag.localName?).isSome then failure
    match ← d.variantEntries depth label entries with
    | ([name], fields) => return (name, .named fields)
    | _ => failure
  | .sequence tag (first :: items) =>
    if (tag.bind Tag.localName?).isSome then failure
    let name ← d.text first
    let numbers ← items.mapM fun n => return (← d.datum depth n).number?
    return (name, .ordered numbers)
  | _ => failure

/-- A variant may stand three records deep. -/
def format : Format Node Reading where
  fail := failure
  text := d.text
  flag := d.flag
  natural := d.natural
  choice := d.choice
  record names _ := d.record names
  labelled := d.labelled 3
  present := d.present

/-- Reads the root of a document. Each place of the document allows to follow a hundred aliases. -/
def read {α : Type} (reading : Node → Reading α) : Option α := do
  Prod.fst <$> (reading (← d.root)).run (100 * d.size)

end Document

end ProgramFlow.Yaml
