import ProgramFlow.Document.Decimal
import ProgramFlow.Document.Json
import ProgramFlow.Document.Yaml.Cursor
/-!
The texts of YAML scalars: how broken lines are folded, the escapes of quoted scalars and the
indentation of block scalars. Texts that are still being read are kept in reverse.
-/
namespace ProgramFlow.Yaml

open Decimal (digitValue hexValue?)

inductive Style
  | plain | quoted | literal | folded
  deriving DecidableEq, Repr

/-- What stands between two words of a flow scalar: blanks, or line breaks with the blanks around
them. -/
structure Gap where
  blanks : List Char := []
  broken : Bool := false
  firstBreak : Option Char := none
  breaks : List Char := []

namespace Gap

def isEmpty (g : Gap) : Bool := !g.broken && g.blanks.isEmpty

def addBlank (g : Gap) (c : Char) : Gap :=
  if g.broken then g else { g with blanks := c :: g.blanks }

def addBreak (g : Gap) (c : Char) : Gap :=
  if g.broken then { g with breaks := c :: g.breaks }
  else { broken := true, firstBreak := some c }

/-- The gap after a line break that is escaped. -/
def escaped : Gap := { broken := true }

/-- The text that the gap stands for. A single newline is folded into a blank, and of several the
first is dropped. -/
def text (g : Gap) : List Char :=
  if !g.broken then g.blanks
  else if g.firstBreak = some '\n' then if g.breaks.isEmpty then [' '] else g.breaks
  else g.breaks ++ g.firstBreak.toList

end Gap

/-- The words of a plain scalar after the text `acc` and a gap: the text, the gap that ends it, and
the place behind the gap. A later line must reach the column `indent`, except in a flow collection,
where a colon before an indicator is refused. -/
def plainWords (flow : Bool) (indent : Nat) : (size : Nat) → (acc : List Char) → Gap → Cursor →
    Option (List Char × Gap × Cursor)
  | 0, _, _, _ => none
  | size + 1, acc, gap, p =>
    match p.rest with
    | [] => some (acc, gap, p)
    | c :: cs =>
      if isBreak c then plainWords flow indent size acc (gap.addBreak c) p.next
      else if isBlank c then
        if gap.broken && p.column < indent && c == '\t' then none
        else plainWords flow indent size acc (gap.addBlank c) p.next
      else if p.atSeparator || (!gap.isEmpty && (c == '#' || (!flow && p.column < indent))) then
        some (acc, gap, p)
      else if flow && c == ':' && cs.head?.any fun d => d == '?' || isFlowIndicator d then none
      else if (c == ':' && atGap cs) || (flow && isFlowIndicator c) then some (acc, gap, p)
      else plainWords flow indent size (c :: (gap.text ++ acc)) {} p.next

/-- The value of exactly `n` hexadecimal digits. -/
def hexCode (n : Nat) (cs : List Char) : Option Nat := do
  let digits ← (cs.take n).mapM hexValue?
  if digits.length < n then none else some (digits.foldl (fun m d => 16 * m + d) 0)

/-- The character after a backslash, and the length of the escape without the backslash. -/
def escape : List Char → Option (Char × Nat)
  | 'x' :: cs => code 2 cs
  | 'u' :: cs => code 4 cs
  | 'U' :: cs => code 8 cs
  | '0' :: _ => some (Char.ofNat 0, 1)
  | 'a' :: _ => some (Char.ofNat 0x07, 1)
  | 'v' :: _ => some (Char.ofNat 0x0B, 1)
  | 'e' :: _ => some (Char.ofNat 0x1B, 1)
  | ' ' :: _ => some (' ', 1)
  | '\t' :: _ => some ('\t', 1)
  | 'N' :: _ => some (Char.ofNat 0x85, 1)
  | '_' :: _ => some (Char.ofNat 0xA0, 1)
  | 'L' :: _ => some (lineSeparator, 1)
  | 'P' :: _ => some (paragraphSeparator, 1)
  | c :: _ => (Json.simpleEscape? c).map (·, 1)
  | [] => none
where
  code (n : Nat) (cs : List Char) : Option (Char × Nat) := do
    let m ← hexCode n cs
    if m.isValidChar then some (Char.ofNat m, n + 1) else none

/-- The words of a scalar in double or single quotes after the text `acc` and a gap: the text, and
the place behind the closing quote. -/
def quotedWords (double : Bool) : (size : Nat) → (acc : List Char) → Gap → Cursor →
    Option (List Char × Cursor)
  | 0, _, _, _ => none
  | size + 1, acc, gap, p =>
    match p.rest with
    | [] => none
    | c :: cs =>
      if isBreak c then quotedWords double size acc (gap.addBreak c) p.next
      else if isBlank c then quotedWords double size acc (gap.addBlank c) p.next
      else if p.atSeparator then none
      else
        let acc := gap.text ++ acc
        if double && c == '"' then some (acc, p.next)
        else if !double && c == '\'' then
          if cs.head? = some '\'' then quotedWords double size ('\'' :: acc) {} (p.skip 2)
          else some (acc, p.next)
        else if double && c == '\\' then
          if cs.head?.any isBreak then quotedWords double size acc .escaped (p.skip 2)
          else
            match escape cs with
            | some (e, n) => quotedWords double size (e :: acc) {} (p.skip (n + 1))
            | none => none
        else quotedWords double size (c :: acc) {} p.next

/-- What becomes of the line breaks at the end of a block scalar. -/
inductive Chomp
  | strip | clip | keep

/-- How a block scalar is written: what becomes of its end, and by how much it is indented if that
is said. -/
structure BlockHeader where
  chomp : Chomp := .clip
  indent : Option Nat := none

namespace BlockHeader

def chomp? (p : Cursor) : Option (Chomp × Cursor) :=
  match p.rest with
  | '+' :: _ => some (.keep, p.next)
  | '-' :: _ => some (.strip, p.next)
  | _ => none

/-- One digit other than zero, if a digit comes next. -/
def indent? (p : Cursor) : Option (Option Nat × Cursor) :=
  match p.rest with
  | c :: _ =>
    if c == '0' then none
    else if c.isDigit then some (some (digitValue c), p.next)
    else some (none, p)
  | [] => some (none, p)

/-- The header and the place behind it. Its parts come in either order. -/
def read (p : Cursor) : Option (BlockHeader × Cursor) :=
  match chomp? p with
  | some (chomp, p) => do
    let (indent, p) ← indent? p
    return (⟨chomp, indent⟩, p)
  | none => do
    let (indent, p) ← indent? p
    if indent.isNone then return ({}, p)
    else
      match chomp? p with
      | some (chomp, p) => return (⟨chomp, indent⟩, p)
      | none => return (⟨.clip, indent⟩, p)

end BlockHeader

/-- Line breaks, with the spaces of the indentation in front of each: the breaks, the widest
indentation, and the place behind them. A line is indented by at most `indent`, if that is known. -/
def blockBreaks (indent : Option Nat) : (size : Nat) → (breaks : List Char) → (widest : Nat) →
    Cursor → Option (List Char × Nat × Cursor)
  | 0, _, _, _ => none
  | size + 1, breaks, widest, p =>
    let within := indent.all (p.column < ·)
    match p.rest with
    | ' ' :: _ =>
      if within then blockBreaks indent size breaks widest p.next
      else some (breaks, max widest p.column, p)
    | c :: _ =>
      if within && c == '\t' then none
      else if isBreak c then blockBreaks indent size (c :: breaks) (max widest p.column) p.next
      else some (breaks, max widest p.column, p)
    | [] => some (breaks, max widest p.column, p)

/-- The end of a block scalar, with its last break and the breaks that followed. -/
def Chomp.ending (chomp : Chomp) (lastBreak : Option Char) (breaks : List Char) : List Char :=
  match chomp with
  | .strip => []
  | .clip => lastBreak.toList
  | .keep => breaks ++ lastBreak.toList

/-- The lines of a block scalar at the column `indent` after the text `acc`, which ended with the
break `lastBreak`, and `breaks` followed; `wasBlank` says that its last line began with a blank. -/
def blockLines (literal : Bool) (chomp : Chomp) (indent : Nat) : (size : Nat) →
    (acc : List Char) → (lastBreak : Option Char) → (breaks : List Char) → (wasBlank : Bool) →
    Cursor → Option (List Char × Cursor)
  | 0, _, _, _, _, _ => none
  | size + 1, acc, lastBreak, breaks, wasBlank, p =>
    match p.rest with
    | [] => some (chomp.ending lastBreak breaks ++ acc, p)
    | c :: _ =>
      if p.column ≠ indent then some (chomp.ending lastBreak breaks ++ acc, p)
      else
        let joined :=
          if !literal && lastBreak == some '\n' && !wasBlank && !isBlank c then
            if breaks.isEmpty then ' ' :: acc else breaks ++ acc
          else breaks ++ lastBreak.toList ++ acc
        let (line, p) := p.span (!isBreak ·)
        match blockBreaks (some indent) size [] 0 p.next with
        | some (breaks, _, q) =>
          blockLines literal chomp indent size (line.reverse ++ joined) p.rest.head? breaks
            (isBlank c) q
        | none => none

/-- A block scalar behind the sign that opens it, inside a block whose lines start in front of the
column `least`. -/
def blockText (literal : Bool) (least size : Nat) (p : Cursor) :
    Option (List Char × Cursor) := do
  let (header, p) ← BlockHeader.read p
  let p ← p.finishLine
  let given := header.indent.map (least - 1 + ·)
  let (breaks, widest, p) ← blockBreaks given size [] 0 p
  let indent := given.getD (max widest (max least 1))
  blockLines literal header.chomp indent size [] none breaks false p

end ProgramFlow.Yaml
