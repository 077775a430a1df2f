/-
# Decimal numerals

The texts that count as numbers: an optional sign; digits with an optional point among or after
them, or a point followed by digits; then optionally a mark `e` or `E` with an optional sign
and digits.  A numeral stands for `± coefficient · 10 ^ exponent`, exactly; as a binary number
it stands for the nearest one.

The digits of an exponent count only until they have come to `exponentLimit`: digits after that are
accepted and have no effect.  This shows only in texts with tens of thousands of other digits, since
for all others every exponent of that size leads to zero or to infinity.
-/

import LineScript.Binary64
import LineScript.Decimal.Digits

namespace LineScript
namespace Decimal

/-- The powers of ten. -/
def tenTo (k : Nat) : Nat :=
  Nat.pow 10 k

/-- The pattern of the magnitude nearest to `coefficient · 10 ^ exponent`.  Exponents that are
out of reach of every finite magnitude are settled without computing the power. -/
def nearest (coefficient : Nat) (exponent : Int) : Nat :=
  if coefficient = 0 then 0
  else if 400 < exponent then Binary64.infinity
  else if exponent + coefficient.log2 < -400 then 0
  else
    match exponent with
    | .ofNat k => Binary64.nearest ((coefficient * tenTo k) <<< 1074) 1
    | .negSucc k => Binary64.nearest (coefficient <<< 1074) (tenTo (k + 1))

theorem nearest_le_infinity (coefficient : Nat) (exponent : Int) :
    nearest coefficient exponent ≤ Binary64.infinity := by
  unfold nearest
  split
  · exact Nat.zero_le _
  split
  · exact Nat.le_refl _
  split
  · exact Nat.zero_le _
  split <;> exact Binary64.nearest_le_infinity _ _

/-- A decimal number as written. -/
structure Numeral where
  /-- A minus sign stands in front. -/
  negative : Bool
  /-- The digits, read without their point. -/
  coefficient : Nat
  /-- The power of ten that scales them. -/
  exponent : Int
deriving DecidableEq, Repr

namespace Numeral

/-- The number that a numeral stands for. -/
def toBinary64 (n : Numeral) : Binary64 where
  negative := n.negative
  magnitude := nearest n.coefficient n.exponent
  magnitude_lt := Nat.lt_of_le_of_lt (nearest_le_infinity _ _) Binary64.infinity_lt

end Numeral

/-- The size from which on an exponent takes no further digits. -/
def exponentLimit : Nat := 65536

/-- The exponent that digits spell. -/
def ofExponentDigits (ds : Text) : Nat :=
  ds.foldl (fun n d => if n < exponentLimit then 10 * n + digitValue d else n) 0

/-- Takes an optional sign off a text, and says whether it was a minus. -/
def takeSign : Text → Bool × Text
  | '+' :: cs => (false, cs)
  | '-' :: cs => (true, cs)
  | cs => (false, cs)

/-- The digits at the front of a text, and what follows them. -/
def takeDigits (cs : Text) : Text × Text :=
  (cs.takeWhile Char.isDigit, cs.dropWhile Char.isDigit)

/-- Takes a point and the digits after it off a text; no digits if there is no point. -/
def takeFraction : Text → Text × Text
  | '.' :: cs => takeDigits cs
  | cs => ([], cs)

/-- Reads the whole text as an exponent part, which may be missing. -/
def readExponent? : Text → Option Int
  | [] => some 0
  | c :: cs =>
    if c = 'e' ∨ c = 'E' then
      let (negative, cs) := takeSign cs
      if cs ≠ [] ∧ cs.all Char.isDigit then
        some (if negative then -(ofExponentDigits cs : Int) else ofExponentDigits cs)
      else none
    else none

/-- Reads the whole text as a numeral. -/
def Numeral.read? (cs : Text) : Option Numeral :=
  let (negative, cs) := takeSign cs
  let (whole, cs) := takeDigits cs
  let (fraction, cs) := takeFraction cs
  if whole = [] ∧ fraction = [] then none
  else
    (readExponent? cs).map fun e =>
      ⟨negative, ofDigits (whole ++ fraction), e - fraction.length⟩

/-- The number that a text spells, if it is a numeral. -/
def read? (cs : Text) : Option Binary64 :=
  (Numeral.read? cs).map Numeral.toBinary64

end Decimal
end LineScript
