import ProgramFlow.Document.Decimal
import ProgramFlow.Document.Yaml.Cursor
/-!
Tags of YAML nodes: a tag is written whole, or as a handle that stands for the beginning of tags and
a suffix. Octets of a tag may be escaped; a zero octet ends what it stands in.
-/
namespace ProgramFlow.Yaml

open Decimal (hexValue?)

/-- The octets of a tag or of a part of one. -/
abbrev Tag := List UInt8

namespace Tag

def ofString (s : String) : Tag := s.toUTF8.toList

def ofChars (cs : List Char) : Tag := ofString (String.ofList cs)

/-- The part in front of the first zero octet. -/
def untilZero (t : Tag) : Tag := t.takeWhile (· != 0)

/-- The tags of the values that plain scalars can have. -/
def core (name : String) : Tag := ofString ("tag:yaml.org,2002:" ++ name)

/-- What a local tag says behind its exclamation mark, if that is a text. -/
def localName? (t : Tag) : Option String :=
  match t with
  | 0x21 :: name => String.fromUTF8? ⟨name.toArray⟩
  | _ => none

def isLocal (t : Tag) : Bool := t.head? == some 0x21

/-- The characters of a tag; inside angle brackets there are more. -/
def isUriChar (verbatim : Bool) (c : Char) : Bool :=
  isNameChar c || ";/?:@&=+$.%!~*'()".toList.contains c ||
    (verbatim && (c == ',' || c == '[' || c == ']'))

def octet? : List Char → Option Nat
  | '%' :: a :: b :: _ => return 16 * (← hexValue? a) + (← hexValue? b)
  | _ => none

/-- The number of octets of a character that begins with this one. -/
def octetCount? (n : Nat) : Option Nat :=
  if n < 0x80 then some 1
  else if n < 0xC0 then none
  else if n < 0xE0 then some 2
  else if n < 0xF0 then some 3
  else if n < 0xF8 then some 4
  else none

/-- The further escaped octets of a character, in front of `acc` in reverse. -/
def trailing : (count : Nat) → Tag → Cursor → Option (Tag × Cursor)
  | 0, acc, p => some (acc, p)
  | count + 1, acc, p => do
    let n ← octet? p.rest
    if 0x80 ≤ n ∧ n < 0xC0 then trailing count (UInt8.ofNat n :: acc) (p.skip 3) else none

/-- The octets of a tag, in front of `acc` in reverse. -/
def octets (verbatim : Bool) : (size : Nat) → Tag → Cursor → Option (Tag × Cursor)
  | 0, _, _ => none
  | size + 1, acc, p =>
    match p.rest with
    | [] => some (acc, p)
    | c :: _ =>
      if c == '%' then do
        let n ← octet? p.rest
        let (acc, p) ← trailing ((← octetCount? n) - 1) (UInt8.ofNat n :: acc) (p.skip 3)
        octets verbatim size acc p
      else if isUriChar verbatim c then
        octets verbatim size (UInt8.ofNat c.toNat :: acc) p.next
      else some (acc, p)

/-- A tag, or what follows the beginning `head`; one of both must have a character. -/
def read (verbatim : Bool) (head : Tag) (size : Nat) (p : Cursor) : Option (Tag × Cursor) := do
  let (acc, p) ← octets verbatim size [] p
  if head.isEmpty && acc.isEmpty then none
  else some (untilZero (head.drop 1 ++ acc.reverse), p)

/-- An exclamation mark and a name, which may end in a further mark. -/
def readHandle (p : Cursor) : Option (List Char × Cursor) :=
  if p.rest.head? = some '!' then
    let (name, p) := p.next.span isNameChar
    if p.rest.head? = some '!' then some ('!' :: name ++ ['!'], p.next) else some ('!' :: name, p)
  else none

/-- The handle of a tag declaration. -/
def declaredHandle (p : Cursor) : Option (List Char × Cursor) := do
  let (handle, p) ← readHandle p
  if handle = ['!'] ∨ handle.getLast? = some '!' then some (handle, p) else none

/-- The handle and the suffix of the tag of a node. A tag without a handle is all suffix. -/
def readParts (size : Nat) (p : Cursor) : Option ((List Char × Tag) × Cursor) := do
  if ['!', '<'].isPrefixOf p.rest then
    let (suffix, p) ← read true [] size (p.skip 2)
    if p.rest.head? = some '>' then some (([], suffix), p.next) else none
  else
    let (handle, p) ← readHandle p
    if 1 < handle.length ∧ handle.getLast? = some '!' then
      let (suffix, p) ← read false [] size p
      return ((handle, suffix), p)
    else
      let (suffix, p) ← read false (ofChars handle) size p
      if suffix.isEmpty then return (([], ofString "!"), p)
      else return ((['!'], suffix), p)

end Tag

/-- A handle and the beginning of the tags that it stands for. -/
abbrev TagHandle := List Char × Tag

/-- The handles that need no declaration. -/
def TagHandle.predefined : List TagHandle :=
  [(['!'], Tag.ofString "!"), (['!', '!'], Tag.core "")]

/-- The tag that a handle and a suffix write. -/
def Tag.resolve? (handles : List TagHandle) (handle : List Char) (suffix : Tag) : Option Tag :=
  if handle.isEmpty then some suffix else (· ++ suffix) <$> handles.lookup handle

end ProgramFlow.Yaml
