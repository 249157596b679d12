import ProgramFlow.Document.Decimal
/-!
What plain YAML scalars mean. Numbers are written in base 10, 16, 8 or 2; a decimal number may not
begin with a zero in front of further digits.
-/
namespace ProgramFlow.Yaml

open Decimal (hexValue?)

inductive Meaning
  | null
  | flag (value : Bool)
  /-- A natural number with 64 bits. -/
  | natural (n : Nat)
  /-- The negation of a number, with 64 bits in all. -/
  | negative (n : Nat)
  /-- An integer with more than 64 bits, but no more than 128. -/
  | wide
  | float
  | text
  deriving DecidableEq, Repr

namespace Meaning

/-- One or more digits in a base. -/
def digits? (base : Nat) (cs : List Char) : Option Nat :=
  if cs.isEmpty then none
  else
    cs.foldlM
      (fun n c => do
        let d ← hexValue? c
        if d < base then some (base * n + d) else none)
      0

def natural? : List Char → Option Nat
  | '0' :: 'x' :: cs => digits? 16 cs
  | '0' :: 'o' :: cs => digits? 8 cs
  | '0' :: 'b' :: cs => digits? 2 cs
  | ['0'] => some 0
  | '0' :: _ => none
  | cs => digits? 10 cs

/-- A number without its sign. -/
def magnitude : List Char → List Char
  | '-' :: cs | '+' :: cs => cs
  | cs => cs

def integer? (cs : List Char) : Option Meaning := do
  let n ← natural? (magnitude cs)
  if cs.head? = some '-' then
    if n ≤ Nat.pow 2 63 then some (negative n) else if n ≤ Nat.pow 2 127 then some wide else none
  else if n < UInt64.size then some (natural n)
  else if n < Nat.pow 2 128 then some wide
  else none

/-- The exponent at the end of a number. -/
def exponent? : List Char → Option Int
  | [] => some 0
  | c :: cs =>
    if c == 'e' || c == 'E' then do
      let n ← digits? 10 (magnitude cs)
      return if cs.head? = some '-' then -n else n
    else none

/-- A decimal number with a point or an exponent, or with neither, that is not too large. -/
def isFloat (cs : List Char) : Bool :=
  let cs := magnitude cs
  let whole := cs.takeWhile Char.isDigit
  let cs := cs.dropWhile Char.isDigit
  let (fraction, cs) :=
    match cs with
    | '.' :: cs => (cs.takeWhile Char.isDigit, cs.dropWhile Char.isDigit)
    | cs => ([], cs)
  if whole.isEmpty && fraction.isEmpty then false
  else (exponent? cs).any fun e => Decimal.isFinite (whole ++ fraction) (e - fraction.length)

/-- Zeros in front of further digits make a text of them. -/
def isPadded (cs : List Char) : Bool :=
  match magnitude cs with
  | '0' :: c :: cs => (c :: cs).all Char.isDigit
  | _ => false

def isNull (text : String) : Bool := ["~", "null", "Null", "NULL"].contains text

def flag? (text : String) : Option Bool :=
  if ["true", "True", "TRUE"].contains text then some true
  else if ["false", "False", "FALSE"].contains text then some false
  else none

/-- An infinite number, or none at all. -/
def isSpecialFloat (text : String) : Bool :=
  [".inf", ".Inf", ".INF", "+.inf", "+.Inf", "+.INF", "-.inf", "-.Inf", "-.INF", ".nan", ".NaN",
    ".NAN"].contains text

def isFloatText (text : String) : Bool := isSpecialFloat text || isFloat text.toList

def ofPlain (s : String) : Meaning :=
  if s.isEmpty || isNull s then null
  else
    match flag? s, integer? s.toList with
    | some b, _ => flag b
    | none, some n => n
    | none, none => if !isPadded s.toList && isFloatText s then float else text

end Meaning

end ProgramFlow.Yaml
