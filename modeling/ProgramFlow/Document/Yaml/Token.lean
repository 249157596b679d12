import ProgramFlow.Document.Yaml.Scalar
import ProgramFlow.Document.Yaml.Tag
import Std.Data.TreeMap
/-!
The tokens of a YAML text. The columns at which lines start open and close blocks; a key without a
question mark is known as one only at its colon, so the places of such keys are marked then.
-/
namespace ProgramFlow.Yaml

inductive Token
  | version (major minor : Nat)
  | handle (name : List Char) (stem : Tag)
  | documentStart
  | documentEnd
  /-- A sequence, mapping or the end of one, by indentation. -/
  | blockSequence | blockMapping | blockEnd
  /-- The brackets of a sequence or mapping. -/
  | openSequence | closeSequence | openMapping | closeMapping
  /-- The dash of an item, and the comma between items. -/
  | dash | comma
  | key | value
  | alias (name : String)
  | anchor (name : String)
  | tag (handle : List Char) (suffix : Tag)
  | scalar (style : Style) (text : String)
  deriving DecidableEq

/-- A token that stands between documents. -/
def Token.isOutside : Token → Bool
  | .version .. | .handle .. | .documentStart | .documentEnd => true
  | _ => false

/-- A token that a colon may turn out to make a key. -/
structure KeyCandidate where
  /-- The number of tokens before it. -/
  number : Nat
  place : Cursor
  /-- Nothing but a key may stand there. -/
  required : Bool

namespace KeyCandidate

/-- A key stands on one line and is not long. -/
def isStale (k : KeyCandidate) (p : Cursor) : Bool :=
  k.place.line < p.line || k.place.offset + 1024 < p.offset

/-- Drops what can be no key at the given place any more. -/
def refresh (p : Cursor) : Option KeyCandidate → Option (Option KeyCandidate)
  | none => some none
  | some k => if k.isStale p then if k.required then none else some none else some (some k)

end KeyCandidate

structure Lexer where
  place : Cursor
  /-- The tokens so far, in reverse. -/
  tokens : List Token := []
  count : Nat := 0
  /-- The columns of the open blocks, the innermost first. -/
  indents : List Nat := []
  /-- A key may begin here, and in a block also a dash. -/
  keyAllowed : Bool := true
  /-- What may still be a key, outside of all brackets and then inside each. -/
  candidate : Option KeyCandidate := none
  outer : List (Option KeyCandidate) := []
  /-- The numbers of the tokens that are keys, with whether a mapping begins there. -/
  keys : Std.TreeMap Nat Bool := ∅

namespace Lexer

/-- Inside brackets. -/
def inFlow (l : Lexer) : Bool := !l.outer.isEmpty

/-- The first column of the lines inside the innermost block. -/
def least (l : Lexer) : Nat := l.indents.head?.elim 0 (· + 1)

def emit (l : Lexer) (t : Token) : Lexer := { l with tokens := t :: l.tokens, count := l.count + 1 }

/-- Goes on behind `n` characters. -/
def skip (l : Lexer) (n : Nat) : Lexer := { l with place := l.place.skip n }

/-- Opens a block at a column, if it is further right than those that are open; the answer tells
whether it is. -/
def indent (l : Lexer) (column : Nat) : Bool × Lexer :=
  if l.inFlow || column < l.least then (false, l)
  else (true, { l with indents := column :: l.indents })

/-- Opens a block here. -/
def openBlock (l : Lexer) (t : Token) : Lexer :=
  let (isNew, l) := l.indent l.place.column
  if isNew then l.emit t else l

/-- Closes the blocks whose lines start in the columns of a kind. -/
def closeBlocks (kind : Nat → Bool) (l : Lexer) : Lexer :=
  if l.inFlow then l
  else
    let closed := l.indents.takeWhile kind
    closed.foldl (fun l _ => l.emit .blockEnd) { l with indents := l.indents.drop closed.length }

/-- Gives up the candidate, which must not be required. -/
def dropCandidate (l : Lexer) : Option Lexer :=
  if l.candidate.any (·.required) then none else some { l with candidate := none }

/-- The next token may turn out to be a key. -/
def saveCandidate (l : Lexer) : Option Lexer := do
  if !l.keyAllowed then return l
  let l ← l.dropCandidate
  return { l with
    candidate := some
      { number := l.count
        place := l.place
        required := !l.inFlow && l.indents.head? == some l.place.column } }

/-- Over blanks, comments and line breaks. In a block a tab may not stand where a key may begin. -/
def skipGap : (size : Nat) → Lexer → Lexer
  | 0, l => l
  | size + 1, l =>
    let p := l.place
    let p := if p.column == 0 && p.rest.head? == some byteOrderMark then p.next else p
    let p := p.skipWhile fun c => c == ' ' || (c == '\t' && (l.inFlow || !l.keyAllowed))
    let p := p.skipComment
    if p.rest.head?.any isBreak then
      skipGap size { l with place := p.next, keyAllowed := l.keyAllowed || !l.inFlow }
    else { l with place := p }

/-- A number of at most nine digits. -/
def versionNumber (p : Cursor) : Option (Nat × Cursor) :=
  let (digits, p) := p.span Char.isDigit
  if digits.isEmpty || 9 < digits.length then none else some (Decimal.natOfDigits digits, p)

/-- A directive, behind its percent sign. -/
def directive (size : Nat) (p : Cursor) : Option (Token × Cursor) := do
  let (name, p) := p.span isNameChar
  if !atGap p.rest then none
  else if name = "YAML".toList then
    let (major, p) ← versionNumber p.skipBlanks
    if p.rest.head? ≠ some '.' then none
    else
      let (minor, p) ← versionNumber p.next
      return (.version major minor, ← p.finishLine)
  else if name = "TAG".toList then
    let (handle, p) ← Tag.declaredHandle p.skipBlanks
    if !p.rest.head?.any isBlank then none
    else
      let (stem, p) ← Tag.read true [] size p.skipBlanks
      if atGap p.rest then return (.handle handle stem, ← p.finishLine) else none
  else none

/-- A mark or a directive at the start of a line, outside of any key. -/
def outsideBlocks (l : Lexer) : Option Lexer := do
  let l ← (l.closeBlocks fun _ => true).dropCandidate
  return { l with keyAllowed := false }

/-- A token of one character that is no key. -/
def sign (t : Token) (keyAllowed : Bool) (l : Lexer) : Option Lexer := do
  let l ← l.dropCandidate
  return { (l.emit t).skip 1 with keyAllowed }

/-- An opening bracket, which may begin a key. -/
def openBracket (t : Token) (l : Lexer) : Option Lexer := do
  let l ← l.saveCandidate
  return { (l.emit t).skip 1 with
    keyAllowed := true, candidate := none, outer := l.candidate :: l.outer }

def closeBracket (t : Token) (l : Lexer) : Option Lexer := do
  let l ← l.dropCandidate
  return { (l.emit t).skip 1 with
    keyAllowed := false
    candidate := l.outer.head?.getD none
    outer := l.outer.drop 1 }

/-- The dash or the question mark of an entry, which opens a block. -/
def entrySign (t block : Token) (keyAllowed : Bool) (l : Lexer) : Option Lexer :=
  if !l.inFlow && !l.keyAllowed then none else (l.openBlock block).sign t keyAllowed

/-- A colon. It makes the candidate a key if there is one. -/
def colon (l : Lexer) : Option Lexer :=
  match l.candidate with
  | some k =>
    let (isNew, l) := l.indent k.place.column
    some { (l.emit .value).skip 1 with
      keys := l.keys.insert k.number isNew
      candidate := none
      keyAllowed := false }
  | none =>
    if !l.inFlow && !l.keyAllowed then none
    else
      let l := l.openBlock .blockMapping
      some { (l.emit .value).skip 1 with keyAllowed := !l.inFlow }

/-- A token that may begin a key and is read from the place of the lexer. -/
def nodePart (l : Lexer) (read : Cursor → Option (Token × Cursor)) : Option Lexer := do
  let l ← l.saveCandidate
  let (t, place) ← read l.place
  return { l.emit t with place, keyAllowed := false }

/-- The name of an anchor or an alias, behind its sign. -/
def anchorName (p : Cursor) : Option (String × Cursor) :=
  let (name, p) := p.span isNameChar
  if name.isEmpty then none
  else if atGap p.rest || p.rest.head?.any "?:,]\x7d%@\x60".toList.contains then
    some (String.ofList name, p)
  else none

def tag (flow : Bool) (size : Nat) (p : Cursor) : Option (Token × Cursor) := do
  let ((handle, suffix), p) ← Tag.readParts size p
  if atGap p.rest || (flow && p.rest.head? == some ',') then return (.tag handle suffix, p)
  else none

def quoted (double : Bool) (size : Nat) (p : Cursor) : Option (Token × Cursor) := do
  let (text, p) ← quotedWords double size [] {} p.next
  return (.scalar .quoted (String.ofList text.reverse), p)

/-- A plain scalar. A key may follow it if a line break ended it. -/
def plain (size : Nat) (l : Lexer) : Option Lexer := do
  let l ← l.saveCandidate
  let (text, gap, place) ← plainWords l.inFlow l.least size [] {} l.place
  return { l.emit (.scalar .plain (String.ofList text.reverse)) with
    place, keyAllowed := gap.broken }

def block (literal : Bool) (size : Nat) (l : Lexer) : Option Lexer := do
  let l ← l.dropCandidate
  let (text, place) ← blockText literal l.least size l.place.next
  let style := if literal then Style.literal else .folded
  return { l.emit (.scalar style (String.ofList text.reverse)) with place, keyAllowed := true }

/-- A plain scalar may begin with this character and the text behind it. -/
def startsPlain (flow : Bool) (c : Char) (cs : List Char) : Bool :=
  if c == '-' then !cs.head?.any isBlank
  else if c == '?' || c == ':' then !flow && !atGap cs
  else !",[]\x7b\x7d#&*!|>'\"%@\x60".toList.contains c

/-- The next token, which begins with the character `c` here. -/
def token (size : Nat) (l : Lexer) (c : Char) (cs : List Char) : Option Lexer :=
  let p := l.place
  if p.column == 0 && c == '%' then do
    let l ← l.outsideBlocks
    let (t, place) ← directive size p.next
    return { l.emit t with place }
  else if p.atMark "---" then do
    let l ← l.outsideBlocks
    return (l.emit .documentStart).skip 3
  else if p.atMark "..." then do
    let l ← l.outsideBlocks
    return (l.emit .documentEnd).skip 3
  else
    match c with
    | '[' => l.openBracket .openSequence
    | '{' => l.openBracket .openMapping
    | ']' => l.closeBracket .closeSequence
    | '}' => l.closeBracket .closeMapping
    | ',' => l.sign .comma true
    | '*' => l.nodePart fun p => (anchorName p.next).map fun (name, p) => (.alias name, p)
    | '&' => l.nodePart fun p => (anchorName p.next).map fun (name, p) => (.anchor name, p)
    | '!' => l.nodePart (tag l.inFlow size)
    | '\'' => l.nodePart (quoted false size)
    | '"' => l.nodePart (quoted true size)
    | c =>
      if c == '-' && atGap cs then l.entrySign .dash .blockSequence true
      else if c == '?' && (l.inFlow || atGap cs) then l.entrySign .key .blockMapping !l.inFlow
      else if c == ':' && (l.inFlow || atGap cs) then l.colon
      else if c == '|' && !l.inFlow then l.block true size
      else if c == '>' && !l.inFlow then l.block false size
      else if startsPlain l.inFlow c cs && !isBlank c then l.plain size
      else none

/-- Looks at the column and the candidate again where a token begins or the text ends. The
candidates outside of brackets are looked at when these are closed. -/
def settle (l : Lexer) : Option Lexer := do
  let candidate ← KeyCandidate.refresh l.place l.candidate
  return ({ l with candidate } : Lexer).closeBlocks (l.place.column < ·)

def run : (size : Nat) → Lexer → Option Lexer
  | 0, _ => none
  | size + 1, l => do
    let l ← (l.skipGap (size + 1)).settle
    match l.place.rest with
    | [] => (l.closeBlocks fun _ => true).dropCandidate
    | c :: cs => run size (← l.token (size + 1) c cs)

/-- The tokens with the signs of keys in front of those that are keys. -/
def marked (l : Lexer) : List Token :=
  (l.tokens.reverse.zipIdx.map fun (t, n) =>
    match l.keys[n]? with
    | some true => [.blockMapping, .key, t]
    | some false => [.key, t]
    | none => [t]).flatten

end Lexer

/-- The tokens of a text. -/
def Token.ofText? (text : String) : Option (List Token) := do
  let cs := text.toList
  if cs.all isAllowed then
    let cs := normalizeBreaks cs
    let l ← Lexer.run (cs.length + 2) { place := { rest := cs } }
    return l.marked
  else none

end ProgramFlow.Yaml
