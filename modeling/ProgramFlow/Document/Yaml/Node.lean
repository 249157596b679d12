import ProgramFlow.Document.Yaml.Event
/-!
The tree that a YAML text writes. An alias stays in its place, since it may refer to a collection
that it is part of.
-/
namespace ProgramFlow.Yaml

inductive Node
  | alias (number : Nat)
  | scalar (tag : Option Tag) (style : Style) (text : String)
  | sequence (tag : Option Tag) (items : List Node)
  | mapping (tag : Option Tag) (entries : List (Node × Node))
  deriving Inhabited

/-- A text with at most one document. -/
structure Document where
  root : Option Node
  /-- The nodes that aliases refer to by their numbers. -/
  anchored : Std.TreeMap Nat Node
  /-- The number of places where nodes begin or end. -/
  size : Nat

/-- A collection that is still open, with its nodes so far in reverse. -/
structure Collection where
  isMapping : Bool
  tag : Option Tag
  /-- The place in the order of anchors, if it has one. -/
  anchor : Option Nat
  nodes : List Node

/-- A document that is being built. -/
structure Builder where
  /-- The numbers of the names of anchors. -/
  numbers : List (String × Nat) := []
  /-- For each number, the place in the order of anchors that has it. -/
  places : Std.TreeMap Nat Nat := ∅
  count : Nat := 0
  /-- The nodes at the places of anchors that have ended. -/
  ended : Std.TreeMap Nat Node := ∅
  stack : List Collection := []
  root : Option Node := none

namespace Builder

/-- Enters an anchor. It gets the number of names before it, so an anchor of a known name and the
next anchor of a new name get one number, which then stands for the later one. -/
def enter (b : Builder) : Option String → Option Nat × Builder
  | none => (none, b)
  | some name =>
    let number := b.numbers.length
    (some b.count, { b with
      numbers := (name, number) :: b.numbers.filter (·.1 != name)
      places := b.places.insert number b.count
      count := b.count + 1 })

/-- Adds a node that has ended to the innermost open collection. -/
def add (b : Builder) (anchor : Option Nat) (n : Node) : Builder :=
  let b := anchor.elim b fun place => { b with ended := b.ended.insert place n }
  match b.stack with
  | [] => { b with root := some n }
  | c :: stack => { b with stack := { c with nodes := n :: c.nodes } :: stack }

def openCollection (b : Builder) (isMapping : Bool) (ps : Properties) : Builder :=
  let (anchor, b) := b.enter ps.anchor
  { b with stack := ⟨isMapping, ps.tag, anchor, []⟩ :: b.stack }

/-- Pairs up keys and values that are given in reverse. -/
def pairs : List Node → List (Node × Node) → List (Node × Node)
  | v :: k :: nodes, entries => pairs nodes ((k, v) :: entries)
  | _, entries => entries

def closeCollection (b : Builder) : Option Builder :=
  match b.stack with
  | [] => none
  | c :: stack =>
    let n :=
      if c.isMapping then Node.mapping c.tag (pairs c.nodes []) else .sequence c.tag c.nodes.reverse
    some (add { b with stack } c.anchor n)

/-- An alias must refer to an anchor in front of it. -/
def next (b : Builder) : Event → Option Builder
  | .alias name => do return b.add none (.alias (← b.numbers.lookup name))
  | .scalar ps style text =>
    let (anchor, b) := b.enter ps.anchor
    some (b.add anchor (.scalar ps.tag style text))
  | .sequenceStart ps => some (b.openCollection false ps)
  | .mappingStart ps => some (b.openCollection true ps)
  | .sequenceEnd | .mappingEnd => b.closeCollection

end Builder

namespace Document

def ofEvents? (events : List Event) : Option Document := do
  let b ← events.foldlM Builder.next {}
  return {
    root := b.root
    anchored := b.places.filterMap fun _ place => b.ended[place]?
    size := events.length }

def ofText? (text : String) : Option Document := do ofEvents? (← Event.ofText? text)

end Document

end ProgramFlow.Yaml
