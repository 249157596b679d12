import ProgramFlow.Document.Decimal
/-!
Reading JSON texts. Integers are kept apart from numbers with a fraction or an exponent, and the
members of an object keep their order and repetitions. A text may hold values that nothing can be
made of, as long as they are passed over.
-/
namespace ProgramFlow

inductive Json
  | null
  | bool (value : Bool)
  | int (value : Int)
  /-- A number written with a fraction or an exponent, or outside the 64-bit integers. -/
  | decimal
  | string (value : String)
  | array (items : List Json)
  | object (members : List (String × Json))
  /-- A string with half a character, an object with such a name, or a number that is too large. -/
  | garbled
  deriving Repr, Inhabited

namespace Json

open Decimal (digitValue natOfDigits hexValue?)

/-- A value read from the front of a text, with the rest of the text. -/
abbrev Reader (α : Type) := List Char → Option (α × List Char)

def isBlank (c : Char) : Bool := c == ' ' || c == '\n' || c == '\t' || c == '\r'

def skipBlanks (cs : List Char) : List Char := cs.dropWhile isBlank

/-- Drops `word` from the front. -/
def literal (word : List Char) (cs : List Char) : Option (List Char) :=
  if word.isPrefixOf cs then some (cs.drop word.length) else none

/-- Four hexadecimal digits. -/
def hex4 : Reader Nat
  | a :: b :: c :: d :: cs => do
    let a ← hexValue? a
    let b ← hexValue? b
    let c ← hexValue? c
    let d ← hexValue? d
    return (((a * 16 + b) * 16 + c) * 16 + d, cs)
  | _ => none

def isHighHalf (n : Nat) : Bool := 0xD800 ≤ n && n < 0xDC00

def isLowHalf (n : Nat) : Bool := 0xDC00 ≤ n && n < 0xE000

/-- The low half that comes next, if one does. -/
def lowHalf? (cs : List Char) : Option (Nat × List Char) := do
  let (n, cs) ← hex4 (← literal ['\\', 'u'] cs)
  if isLowHalf n then some (n, cs) else none

/-- The character after `\u`. One beyond the 16-bit range is written as two halves; a half that
stands alone is none. -/
def unicodeEscape : Reader (Option Char) := fun cs => do
  let (n, cs) ← hex4 cs
  if isHighHalf n then
    match lowHalf? cs with
    | some (m, cs) => return (Char.ofNat (0x10000 + (n - 0xD800) * 0x400 + (m - 0xDC00)), cs)
    | none => return (none, cs)
  else if isLowHalf n then return (none, cs)
  else return (Char.ofNat n, cs)

def simpleEscape? : Char → Option Char
  | '"' => some '"'
  | '\\' => some '\\'
  | '/' => some '/'
  | 'b' => some (Char.ofNat 8)
  | 'f' => some (Char.ofNat 12)
  | 'n' => some '\n'
  | 'r' => some '\r'
  | 't' => some '\t'
  | _ => none

/-- The characters up to the closing quote after those of `acc`, in reverse; none if there is half
a character among them. -/
def stringTail : (size : Nat) → Option (List Char) → Reader (Option String)
  | 0, _, _ => none
  | _ + 1, acc, '"' :: cs => some (acc.map fun acc => String.ofList acc.reverse, cs)
  | size + 1, acc, '\\' :: 'u' :: cs =>
    match unicodeEscape cs with
    | some (c, cs) => stringTail size (do return (← c) :: (← acc)) cs
    | none => none
  | size + 1, acc, '\\' :: e :: cs =>
    match simpleEscape? e with
    | some c => stringTail size (acc.map (c :: ·)) cs
    | none => none
  | size + 1, acc, c :: cs =>
    if c.toNat < 0x20 || c == '\\' then none else stringTail size (acc.map (c :: ·)) cs
  | _ + 1, _, [] => none

/-- One or more digits. -/
def digits : Reader (List Char) := fun cs =>
  match cs.takeWhile Char.isDigit with
  | [] => none
  | ds => some (ds, cs.dropWhile Char.isDigit)

/-- The digits before the point; a leading zero stands alone. -/
def wholePart : Reader (List Char)
  | '0' :: c :: cs => if c.isDigit then none else some (['0'], c :: cs)
  | cs => digits cs

/-- The digits after the point, if there is one. -/
def fraction? : Reader (Option (List Char))
  | '.' :: cs => do
    let (ds, cs) ← digits cs
    return (some ds, cs)
  | cs => some (none, cs)

def signedDigits : Reader Int
  | '-' :: cs => do
    let (ds, cs) ← digits cs
    return (-Int.ofNat (natOfDigits ds), cs)
  | '+' :: cs => do
    let (ds, cs) ← digits cs
    return (natOfDigits ds, cs)
  | cs => do
    let (ds, cs) ← digits cs
    return (natOfDigits ds, cs)

def exponent? : Reader (Option Int)
  | c :: cs =>
    if c == 'e' || c == 'E' then do
      let (e, cs) ← signedDigits cs
      return (some e, cs)
    else some (none, c :: cs)
  | [] => some (none, [])

/-- Appends digits to a 64-bit number while they fit: the number and the digits left over. -/
def significand : (n : Nat) → List Char → Nat × List Char
  | n, [] => (n, [])
  | n, c :: cs =>
    if 10 * n + digitValue c < UInt64.size then significand (10 * n + digitValue c) cs else (n, c :: cs)

/-- The significand has 64 bits; what does not fit into it is cut off. -/
def fitsDouble (whole fraction : List Char) (exponent : Int) : Bool :=
  let (n, dropped) := significand 0 whole
  let (n, left) := significand n fraction
  Decimal.isFiniteProduct n (exponent + dropped.length - (fraction.length - left.length))

def number (negative : Bool) : Reader Json := fun cs => do
  let (whole, cs) ← wholePart cs
  let (fraction, cs) ← fraction? cs
  let (exponent, cs) ← exponent? cs
  let n := natOfDigits whole
  if fraction.isNone && exponent.isNone &&
      (if negative then 0 < n && n ≤ Nat.pow 2 63 else n < UInt64.size) then
    return (.int (if negative then -Int.ofNat n else n), cs)
  else if fitsDouble whole (fraction.getD []) (exponent.getD 0) then return (.decimal, cs)
  else return (.garbled, cs)

/-- An array or object that is still open, with what it holds so far in reverse. -/
inductive Open
  | array (items : List Json)
  /-- The last name still lacks its value. -/
  | object (members : List (Option String × Json)) (name : Option String)

def ofMembers (members : List (Option String × Json)) : Json :=
  match members.mapM fun (name, v) => name.map (·, v) with
  | some members => object members
  | none => garbled

/-- The name of a member, with its colon. -/
def memberName (size : Nat) : Reader (Option String) := fun cs =>
  match skipBlanks cs with
  | '"' :: cs => do
    let (name, cs) ← stringTail size (some []) cs
    return (name, ← literal [':'] (skipBlanks cs))
  | _ => none

/-- A value that is neither an array nor an object. -/
def simple (size : Nat) : Reader Json
  | 'n' :: cs => (literal ['u', 'l', 'l'] cs).map (null, ·)
  | 't' :: cs => (literal ['r', 'u', 'e'] cs).map (bool true, ·)
  | 'f' :: cs => (literal ['a', 'l', 's', 'e'] cs).map (bool false, ·)
  | '"' :: cs => (stringTail size (some []) cs).map fun (s, cs) => (s.elim garbled string, cs)
  | '-' :: cs => number true cs
  | c :: cs => if c.isDigit then number false (c :: cs) else none
  | [] => none

/-- Reads on inside the open arrays and objects. Either a value comes next, or `done` has just been
read. -/
def within : (size : Nat) → (done : Option Json) → List Open → Reader Json
  | 0, _, _, _ => none
  | _ + 1, some v, [], cs => some (v, cs)
  | size + 1, some v, .array items :: stack, cs =>
    match skipBlanks cs with
    | ',' :: cs => within size none (.array (v :: items) :: stack) cs
    | ']' :: cs => within size (some (array (v :: items).reverse)) stack cs
    | _ => none
  | size + 1, some v, .object members name :: stack, cs =>
    match skipBlanks cs with
    | ',' :: cs =>
      match memberName size cs with
      | some (next, cs) => within size none (.object ((name, v) :: members) next :: stack) cs
      | none => none
    | '}' :: cs => within size (some (ofMembers ((name, v) :: members).reverse)) stack cs
    | _ => none
  | size + 1, none, stack, cs =>
    match skipBlanks cs with
    | '[' :: cs =>
      match skipBlanks cs with
      | ']' :: cs => within size (some (array [])) stack cs
      | cs => within size none (.array [] :: stack) cs
    | '{' :: cs =>
      match skipBlanks cs with
      | '}' :: cs => within size (some (object [])) stack cs
      | cs =>
        match memberName size cs with
        | some (name, cs) => within size none (.object [] name :: stack) cs
        | none => none
    | cs =>
      match simple size cs with
      | some (v, cs) => within size (some v) stack cs
      | none => none

/-- The value that the whole text writes. -/
def parse (text : String) : Option Json :=
  let cs := text.toList
  match within (cs.length + 2) none [] cs with
  | some (v, rest) => if (skipBlanks rest).isEmpty then some v else none
  | none => none

/-- Nothing in the value is garbled, and at most so many arrays and objects are around each other. -/
def isSound : (depth : Nat) → Json → Bool
  | _, garbled => false
  | depth + 1, array items => items.all (isSound depth)
  | depth + 1, object members => members.all fun (_, v) => isSound depth v
  | 0, array _ | 0, object _ => false
  | _, _ => true

/-- The greatest number of arrays and objects around each other in a value that is looked at. -/
def maxDepth : Nat := 127

/-- The value that the whole text writes, all of which is looked at. -/
def parseSound (text : String) : Option Json := (parse text).filter (isSound maxDepth)

end Json

end ProgramFlow
