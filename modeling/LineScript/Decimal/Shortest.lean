/-
# Shortest decimal text of a binary number

A number is written with the fewest digits that read back as the same number, always
positionally.  The digits are found on decimal grids.  On the grid of multiples of
`10 ^ (k - 1074)` a value has two neighbours, the multiple at or below it and the one above; if
any point of the grid reads back, one of these two does.  So the search goes from coarse grids to
fine ones and stops at the first with a neighbour that reads back.  If both do, the nearer one is
taken, and the upper one if the value is halfway.  On the finest grid the value is a point itself.
-/

import LineScript.Decimal.Numeral

namespace LineScript
namespace Decimal

/-- The value of a finite magnitude in multiples of `10 ^ -1074`; a unit is a whole number of
them. -/
def onFinest (n : Nat) : Nat :=
  (Binary64.units n * tenTo 1074) >>> 1074

/-- The neighbour of a value on the grid of multiples of `10 ^ (k - 1074)` that reads back as
the magnitude `n`, if one does; `v` is the value on the finest grid. -/
def neighbour? (n v k : Nat) : Option Nat :=
  let below := v / tenTo k
  let readsBack (c : Nat) : Bool := nearest c ((k : Int) - 1074) = n
  match readsBack below, readsBack (below + 1) with
  | true, true => some (if 2 * (v % tenTo k) < tenTo k then below else below + 1)
  | true, false => some below
  | false, true => some (below + 1)
  | false, false => none

/-- The coefficient and the exponent found by the search from the grid `k` on. -/
def search (n v : Nat) : Nat → Nat × Int
  | 0 => (v, -1074)
  | k + 1 =>
    match neighbour? n v (k + 1) with
    | some c => (c, ((k + 1 : Nat) : Int) - 1074)
    | none => search n v k

/-- The number of the grid on which the search for the value `v` starts.  Its step exceeds the half
of the value, because `2 ^ 93 < 10 ^ 28`, so on coarser grids no neighbour comes near it. -/
def coarsest (v : Nat) : Nat :=
  v.log2 * 28 / 93 + 1

/-- The coefficient and the exponent of the shortest decimal that reads back as the finite
magnitude `n`. -/
def shortest (n : Nat) : Nat × Int :=
  let v := onFinest n
  search n v (coarsest v)

/-- Writes `coefficient · 10 ^ exponent` positionally: no exponent, a point only if digits follow
it, and a zero in front of a point that would stand first. -/
def positional (coefficient : Nat) (exponent : Int) : Text :=
  let digits := Nat.toDigits 10 coefficient
  match exponent with
  | .ofNat k => digits ++ List.replicate k '0'
  | .negSucc k =>
    let places := k + 1
    let padded := List.replicate (places + 1 - digits.length) '0' ++ digits
    let split := padded.length - places
    padded.take split ++ '.' :: padded.drop split

/-- The text of a magnitude. -/
def writeMagnitude (n : Nat) : Text :=
  if n = 0 then ['0']
  else if n = Binary64.infinity then "inf".toList
  else
    let (coefficient, exponent) := shortest n
    positional coefficient exponent

/-- The text of a number. -/
def write (x : Binary64) : Text :=
  if x.isNaN then "NaN".toList
  else if x.negative then '-' :: writeMagnitude x.magnitude
  else writeMagnitude x.magnitude

end Decimal
end LineScript
