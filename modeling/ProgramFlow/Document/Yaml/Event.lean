import ProgramFlow.Document.Yaml.Token
/-!
The nodes of a YAML text in the order in which they begin and end, as its tokens give them.
-/
namespace ProgramFlow.Yaml

/-- What may stand in front of a node. -/
structure Properties where
  anchor : Option String := none
  tag : Option Tag := none

inductive Event
  | alias (name : String)
  | scalar (properties : Properties) (style : Style) (text : String)
  | sequenceStart (properties : Properties)
  | mappingStart (properties : Properties)
  | sequenceEnd
  | mappingEnd

/-- A node that nothing is written for. -/
def Event.empty : Event := .scalar {} .plain ""

/-- What comes next inside a collection that is still open. -/
inductive Expected
  /-- The node of a document; behind a mark it may be missing. -/
  | root (marked : Bool)
  /-- In a block: an item after its dash, also one whose dashes are not indented, and a key or a
  value. -/
  | item | outdentedItem | key | value
  /-- In brackets: an item, and a key, a value or the missing value of a key. -/
  | flowItem (first : Bool) | flowKey (first : Bool) | flowValue | noFlowValue
  /-- In brackets: the parts of a pair that is an item. -/
  | pairKey | pairValue | pairEnd

structure Parser where
  tokens : List Token
  /-- The innermost collection first. -/
  stack : List Expected
  handles : List TagHandle

namespace Parser

/-- One more event, with what is expected after it. -/
abbrev Step := Option (Event × Parser)

/-- The properties in front of a node: at most one anchor and one tag. -/
def properties (s : Parser) : Option (Properties × List Token) :=
  match s.tokens with
  | .anchor a :: .tag handle suffix :: ts => do
    return ({ anchor := a, tag := ← Tag.resolve? s.handles handle suffix }, ts)
  | .tag handle suffix :: .anchor a :: ts => do
    return ({ anchor := a, tag := ← Tag.resolve? s.handles handle suffix }, ts)
  | .anchor a :: ts => some ({ anchor := a }, ts)
  | .tag handle suffix :: ts => do
    return ({ tag := ← Tag.resolve? s.handles handle suffix }, ts)
  | ts => some ({}, ts)

/-- A node, after which `stack` is expected. -/
def node (s : Parser) (isBlock mayOutdent : Bool) (stack : List Expected) : Step := do
  if let .alias name :: tokens := s.tokens then return (.alias name, { s with tokens, stack })
  let (ps, tokens) ← s.properties
  match tokens with
  | .scalar style text :: tokens => return (.scalar ps style text, { s with tokens, stack })
  | .openSequence :: tokens =>
    return (.sequenceStart ps, { s with tokens, stack := .flowItem true :: stack })
  | .openMapping :: tokens =>
    return (.mappingStart ps, { s with tokens, stack := .flowKey true :: stack })
  | t :: rest =>
    if t = .dash ∧ mayOutdent then
      return (.sequenceStart ps, { s with tokens, stack := .outdentedItem :: stack })
    else if t = .blockSequence ∧ isBlock then
      return (.sequenceStart ps, { s with tokens := rest, stack := .item :: stack })
    else if t = .blockMapping ∧ isBlock then
      return (.mappingStart ps, { s with tokens := rest, stack := .key :: stack })
    else emptyAfter ps tokens
  | [] => emptyAfter ps tokens
where
  /-- Properties may stand without a node. -/
  emptyAfter (ps : Properties) (tokens : List Token) : Step :=
    if ps.anchor.isSome || ps.tag.isSome then
      some (.scalar ps .plain "", { s with tokens, stack })
    else none

/-- A node in a block, or an empty one in front of the given tokens. -/
def nodeUnless (s : Parser) (stops : List Token) (isBlock mayOutdent : Bool)
    (stack : List Expected) : Step :=
  if s.tokens.head?.any stops.contains then some (.empty, { s with stack })
  else s.node isBlock mayOutdent stack

/-- An item in brackets, or the end of the sequence. -/
def flowItem (s : Parser) (stack : List Expected) : Step :=
  match s.tokens with
  | .closeSequence :: tokens => some (.sequenceEnd, { s with tokens, stack })
  | .key :: tokens =>
    some (.mappingStart {}, { s with tokens, stack := .pairKey :: .flowItem false :: stack })
  | _ => s.node false false (.flowItem false :: stack)

/-- A key in brackets, or the end of the mapping. -/
def flowKey (s : Parser) (stack : List Expected) : Step :=
  match s.tokens with
  | .closeMapping :: tokens => some (.mappingEnd, { s with tokens, stack })
  | .key :: tokens =>
    { s with tokens }.nodeUnless [.value, .comma, .closeMapping] false false
      (.flowValue :: .flowKey false :: stack)
  | _ => s.node false false (.noFlowValue :: .flowKey false :: stack)

/-- The next event; a collection in brackets needs a comma between its entries. An empty key of a
pair takes the token after it along. -/
def step (s : Parser) : Step :=
  match s.stack, s.tokens with
  | [], _ => none
  | .root marked :: stack, tokens =>
    if marked && tokens.head?.all (·.isOutside) then some (.empty, { s with stack })
    else s.node true false stack
  | .item :: stack, .dash :: tokens =>
    { s with tokens }.nodeUnless [.dash, .blockEnd] true false (.item :: stack)
  | .item :: stack, .blockEnd :: tokens => some (.sequenceEnd, { s with tokens, stack })
  | .item :: _, _ => none
  | .outdentedItem :: stack, .dash :: tokens =>
    { s with tokens }.nodeUnless [.dash, .key, .value, .blockEnd] true false
      (.outdentedItem :: stack)
  | .outdentedItem :: stack, _ => some (.sequenceEnd, { s with stack })
  | .key :: stack, .key :: tokens =>
    { s with tokens }.nodeUnless [.key, .value, .blockEnd] true true (.value :: stack)
  | .key :: stack, .blockEnd :: tokens => some (.mappingEnd, { s with tokens, stack })
  | .key :: _, _ => none
  | .value :: stack, .value :: tokens =>
    { s with tokens }.nodeUnless [.key, .value, .blockEnd] true true (.key :: stack)
  | .value :: stack, _ => some (.empty, { s with stack := .key :: stack })
  | .flowItem true :: stack, _ => s.flowItem stack
  | .flowItem false :: stack, .closeSequence :: _ => s.flowItem stack
  | .flowItem false :: stack, .comma :: tokens => { s with tokens }.flowItem stack
  | .flowItem false :: _, _ => none
  | .flowKey true :: stack, _ => s.flowKey stack
  | .flowKey false :: stack, .closeMapping :: _ => s.flowKey stack
  | .flowKey false :: stack, .comma :: tokens => { s with tokens }.flowKey stack
  | .flowKey false :: _, _ => none
  | .flowValue :: stack, .value :: tokens =>
    { s with tokens }.nodeUnless [.comma, .closeMapping] false false stack
  | .flowValue :: stack, _ | .noFlowValue :: stack, _ => some (.empty, { s with stack })
  | .pairKey :: stack, t :: tokens =>
    if [Token.value, .comma, .closeSequence].contains t then
      some (.empty, { s with tokens, stack := .pairValue :: stack })
    else s.node false false (.pairValue :: stack)
  | .pairKey :: _, [] => none
  | .pairValue :: stack, .value :: tokens =>
    { s with tokens }.nodeUnless [.comma, .closeSequence] false false (.pairEnd :: stack)
  | .pairValue :: stack, _ => some (.empty, { s with stack := .pairEnd :: stack })
  | .pairEnd :: stack, _ => some (.mappingEnd, { s with stack })

/-- The events up to the end of all collections, after those of `events`, in reverse. -/
def run : (size : Nat) → (events : List Event) → Parser → Option (List Event × List Token)
  | 0, _, _ => none
  | size + 1, events, s =>
    if s.stack.isEmpty then some (events.reverse, s.tokens)
    else
      match s.step with
      | some (e, s) => run size (e :: events) s
      | none => none

/-- The handles that directives declare, and what follows the directives. The version must be known;
neither it nor a handle may be declared twice. -/
def directives : (version : Bool) → List TagHandle → List Token →
    Option (List TagHandle × List Token)
  | version, handles, .version major minor :: ts =>
    if version || major ≠ 1 || (minor ≠ 1 && minor ≠ 2) then none
    else directives true handles ts
  | version, handles, .handle name stem :: ts =>
    if handles.any (·.1 == name) then none else directives version ((name, stem) :: handles) ts
  | _, handles, ts => some (handles, ts)

/-- The document that the tokens begin with. Behind directives it needs a mark. -/
def document (tokens : List Token) : Option Parser := do
  let (handles, rest) ← directives false [] tokens
  let handles := handles ++ TagHandle.predefined
  match rest with
  | .documentStart :: tokens => return { tokens, stack := [.root true], handles }
  | _ =>
    if rest.length = tokens.length then return { tokens, stack := [.root false], handles }
    else none

end Parser

/-- The events of the only document in a text; there are none if the text has no document. -/
def Event.ofText? (text : String) : Option (List Event) := do
  let tokens ← Token.ofText? text
  if tokens.isEmpty then return []
  let (events, rest) ← (← Parser.document tokens).run (4 * tokens.length + 4) []
  if rest.all (· == .documentEnd) then return events else none

end ProgramFlow.Yaml
