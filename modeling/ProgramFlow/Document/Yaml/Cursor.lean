/-!
Places in a YAML text, and the characters that structure it. Line breaks are single characters here.
-/
namespace ProgramFlow.Yaml

def lineSeparator : Char := Char.ofNat 0x2028

def paragraphSeparator : Char := Char.ofNat 0x2029

def byteOrderMark : Char := Char.ofNat 0xFEFF

def isBreak (c : Char) : Bool := c == '\n' || c == lineSeparator || c == paragraphSeparator

def isBlank (c : Char) : Bool := c == ' ' || c == '\t'

/-- A blank, a line break or the end comes next. -/
def atGap : List Char → Bool
  | [] => true
  | c :: _ => isBlank c || isBreak c

def isFlowIndicator (c : Char) : Bool := ",[]\x7b\x7d".toList.contains c

/-- The characters of names. -/
def isNameChar (c : Char) : Bool := c.isAlphanum || c == '_' || c == '-'

/-- The characters that a text may hold. -/
def isAllowed (c : Char) : Bool :=
  let n := c.toNat
  n == 0x09 || n == 0x0A || n == 0x0D || (0x20 ≤ n && n ≤ 0x7E) || n == 0x85 ||
    (0xA0 ≤ n && n ≤ 0xFFFD) || 0x10000 ≤ n

/-- Writes the line breaks of all systems as newlines. The two separators stay as they are. -/
def normalizeBreaks : List Char → List Char
  | '\r' :: '\n' :: cs => '\n' :: normalizeBreaks cs
  | c :: cs => (if c == '\r' || c.toNat == 0x85 then '\n' else c) :: normalizeBreaks cs
  | [] => []

/-- What is left of a text, the number of bytes before it, and its line and column. -/
structure Cursor where
  rest : List Char
  offset : Nat := 0
  line : Nat := 0
  column : Nat := 0

namespace Cursor

/-- Behind the next character. -/
def next (p : Cursor) : Cursor :=
  match p.rest with
  | [] => p
  | c :: rest =>
    if isBreak c then ⟨rest, p.offset + c.utf8Size, p.line + 1, 0⟩
    else ⟨rest, p.offset + c.utf8Size, p.line, p.column + 1⟩

def skip : Nat → Cursor → Cursor
  | 0, p => p
  | n + 1, p => skip n p.next

/-- The longest run of characters of a kind, and the place behind it. -/
def span (kind : Char → Bool) (p : Cursor) : List Char × Cursor :=
  let run := p.rest.takeWhile kind
  (run, p.skip run.length)

def skipWhile (kind : Char → Bool) (p : Cursor) : Cursor := (p.span kind).2

def skipBlanks (p : Cursor) : Cursor := p.skipWhile isBlank

/-- At the end of a line or of the text. -/
def atLineEnd (p : Cursor) : Bool := p.rest.head?.all isBreak

/-- Behind a comment, if one begins here. -/
def skipComment (p : Cursor) : Cursor :=
  if p.rest.head? = some '#' then p.skipWhile (!isBreak ·) else p

/-- Behind blanks and a comment, the line must end; the place in the next line. -/
def finishLine (p : Cursor) : Option Cursor :=
  let p := p.skipBlanks.skipComment
  if p.atLineEnd then some p.next else none

/-- At a line that starts with the given mark of a document. -/
def atMark (mark : String) (p : Cursor) : Bool :=
  p.column == 0 && mark.toList.isPrefixOf p.rest && atGap (p.rest.drop 3)

/-- At a line that ends or begins a document. -/
def atSeparator (p : Cursor) : Bool := p.atMark "---" || p.atMark "..."

end Cursor

end ProgramFlow.Yaml
