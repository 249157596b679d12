/-!
Decimal numbers as binary numbers of double precision: which of them are too large for one.
-/
namespace ProgramFlow.Decimal

def digitValue (c : Char) : Nat := c.toNat - '0'.toNat

def natOfDigits (cs : List Char) : Nat := cs.foldl (fun n c => 10 * n + digitValue c) 0

def hexValue? (c : Char) : Option Nat :=
  if c.isDigit then some (digitValue c)
  else if 'a' ≤ c ∧ c ≤ 'f' then some (c.toNat - 'a'.toNat + 10)
  else if 'A' ≤ c ∧ c ≤ 'F' then some (c.toNat - 'A'.toNat + 10)
  else none

/-- The least magnitude that rounds to infinity. -/
def overflow : Nat := Nat.pow 2 1024 - Nat.pow 2 970

/-- The number with these digits, times a power of ten, rounds to a finite double. -/
def isFinite (ds : List Char) (exponent : Int) : Bool :=
  let ds := ds.dropWhile (· == '0')
  let magnitude := exponent + ds.length
  if ds.isEmpty || magnitude < 309 then true
  else if 309 < magnitude then false
  else if 0 ≤ exponent then natOfDigits ds * Nat.pow 10 exponent.toNat < overflow
  else natOfDigits ds < overflow * Nat.pow 10 (-exponent).toNat

/-- The nearest number with 53 significant bits; a tie goes to the even one. -/
def roundToDouble (n : Nat) : Nat :=
  let unit := Nat.pow 2 (n.log2 - 52)
  let q := n / unit
  if 2 * (n % unit) < unit ∨ (2 * (n % unit) = unit ∧ q % 2 = 0) then q * unit else (q + 1) * unit

/-- The product of a significand and a power of ten is finite if both factors are rounded before it
is. A small power divides, which never overflows. -/
def isFiniteProduct (significand : Nat) (exponent : Int) : Bool :=
  significand == 0 || exponent < 0 ||
    (exponent < 309 &&
      roundToDouble significand * roundToDouble (Nat.pow 10 exponent.toNat) < overflow)

end ProgramFlow.Decimal
