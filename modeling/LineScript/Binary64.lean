/-
# Binary floating point with 64 bits

A number is a sign and a magnitude.  The magnitude is the 63-bit pattern below the sign bit,
read as a natural number: patterns below `infinity` are finite, the pattern `infinity` is the
infinite magnitude, and the patterns above it are not numbers.

Every finite magnitude is a whole number of units, where a unit is `2 ^ -1074`, the least
positive one.  So `units` is exact, and the operations need one rounding rule: `nearest num den`
is the pattern of the magnitude nearest to `num / den` units, a tie going to the even pattern.
Sum, product and quotient are computed exactly and rounded once.  Patterns are ordered as the
magnitudes they stand for, so comparison compares signed patterns.
-/

namespace LineScript

/-- A 64-bit binary floating-point datum. -/
structure Binary64 where
  /-- The sign bit. -/
  negative : Bool
  /-- The pattern of the other 63 bits. -/
  magnitude : Nat
  /-- The pattern has 63 bits. -/
  magnitude_lt : magnitude < 0x8000000000000000
deriving DecidableEq, Repr

namespace Binary64

/-- The pattern of the infinite magnitude. -/
def infinity : Nat := 0x7ff0000000000000

/-- The least pattern of a magnitude whose leading bit is not written: its exponent field is one.
Magnitudes below it are their own number of units. -/
def leastNormal : Nat := 0x10000000000000

/-- The number of units in a finite magnitude. -/
def units (n : Nat) : Nat :=
  if n < leastNormal then n
  else (leastNormal + n % leastNormal) <<< (n / leastNormal - 1)

/-- The quotient rounded to the nearest whole number, a tie going to the even one. -/
def roundDiv (num den : Nat) : Nat :=
  let q := num / den
  let r := num % den
  if 2 * r < den then q
  else if den < 2 * r then q + 1
  else if q % 2 = 0 then q else q + 1

/-- The pattern of the magnitude nearest to `num / den` units, a tie going to the even pattern;
`infinity` for quotients that round beyond the finite magnitudes. -/
def nearest (num den : Nat) : Nat :=
  let shift := (num / den).log2 - 52
  min (shift * leastNormal + roundDiv num (den <<< shift)) infinity

theorem nearest_le_infinity (num den : Nat) : nearest num den ≤ infinity :=
  Nat.min_le_right _ _

theorem infinity_lt : infinity < 0x8000000000000000 := by
  decide

/-- The number with the given sign whose magnitude is nearest to `num / den` units. -/
def rounded (negative : Bool) (num den : Nat) : Binary64 where
  negative := negative
  magnitude := nearest num den
  magnitude_lt := Nat.lt_of_le_of_lt (nearest_le_infinity num den) infinity_lt

/-- Zero with the given sign. -/
def zero (negative : Bool) : Binary64 where
  negative := negative
  magnitude := 0
  magnitude_lt := by decide

/-- The infinity with the given sign. -/
def infinite (negative : Bool) : Binary64 where
  negative := negative
  magnitude := infinity
  magnitude_lt := infinity_lt

/-- The result of operations that have none. -/
def nan : Binary64 where
  negative := false
  magnitude := 0x7ff8000000000000
  magnitude_lt := by decide

/-- The datum is not a number. -/
def isNaN (x : Binary64) : Bool := infinity < x.magnitude

/-- The datum is an infinity. -/
def isInfinite (x : Binary64) : Bool := x.magnitude = infinity

/-- The datum is a finite number. -/
def isFinite (x : Binary64) : Bool := x.magnitude < infinity

/-- The datum is zero, of either sign. -/
def isZero (x : Binary64) : Bool := x.magnitude = 0

/-- The datum with the other sign. -/
def neg (x : Binary64) : Binary64 := { x with negative := !x.negative }

/-- The value of a finite number in units. -/
def signedUnits (x : Binary64) : Int :=
  if x.negative then -(units x.magnitude : Int) else units x.magnitude

/-! ### Arithmetic -/

/-- The sum.  Finite numbers that cancel give a positive zero, unless both are negative zeros. -/
def add (x y : Binary64) : Binary64 :=
  if x.isNaN || y.isNaN then nan
  else if x.isInfinite then
    if y.isInfinite && x.negative != y.negative then nan else x
  else if y.isInfinite then y
  else
    let sum := x.signedUnits + y.signedUnits
    if sum = 0 then zero (x.negative && y.negative)
    else rounded (sum < 0) sum.natAbs 1

/-- The difference. -/
def sub (x y : Binary64) : Binary64 := add x y.neg

/-- The product. -/
def mul (x y : Binary64) : Binary64 :=
  let sign := x.negative != y.negative
  if x.isNaN || y.isNaN then nan
  else if x.isInfinite || y.isInfinite then
    if x.isZero || y.isZero then nan else infinite sign
  else rounded sign (units x.magnitude * units y.magnitude) (1 <<< 1074)

/-- The quotient.  Dividing by zero is no error: it gives an infinity, or no number for a zero
dividend. -/
def div (x y : Binary64) : Binary64 :=
  let sign := x.negative != y.negative
  if x.isNaN || y.isNaN then nan
  else if x.isInfinite then
    if y.isInfinite then nan else infinite sign
  else if y.isInfinite then zero sign
  else if y.isZero then
    if x.isZero then nan else infinite sign
  else rounded sign (units x.magnitude <<< 1074) (units y.magnitude)

/-! ### Comparison -/

/-- The place of a number in the order; both zeros have the same. -/
def rank (x : Binary64) : Int :=
  if x.negative then -(x.magnitude : Int) else x.magnitude

/-- Both data are numbers, so that they can be compared. -/
def comparable (x y : Binary64) : Bool := !x.isNaN && !y.isNaN

/-- The first number is less than the second. -/
def lt (x y : Binary64) : Bool := comparable x y && x.rank < y.rank

/-- The first number is at most the second. -/
def le (x y : Binary64) : Bool := comparable x y && x.rank ≤ y.rank

/-- The numbers are equal; the two zeros are. -/
def eq (x y : Binary64) : Bool := comparable x y && x.rank = y.rank

/-! ### Bits -/

/-- The datum with the given bit pattern. -/
def ofBits (bits : UInt64) : Binary64 where
  negative := 0x8000000000000000 ≤ bits.toNat
  magnitude := bits.toNat % 0x8000000000000000
  magnitude_lt := Nat.mod_lt _ (by decide)

/-- The bit pattern of a datum. -/
def toBits (x : Binary64) : UInt64 :=
  UInt64.ofNat (x.negative.toNat * 0x8000000000000000 + x.magnitude)

theorem toNat_toBits (x : Binary64) :
    x.toBits.toNat = x.negative.toNat * 0x8000000000000000 + x.magnitude := by
  have h := x.magnitude_lt
  have hb : x.negative.toNat ≤ 1 := Bool.toNat_le x.negative
  rw [toBits, UInt64.toNat_ofNat']
  exact Nat.mod_eq_of_lt (by omega)

theorem ofBits_toBits (x : Binary64) : ofBits x.toBits = x := by
  have h := x.magnitude_lt
  have hn := toNat_toBits x
  obtain ⟨s, m, hm⟩ := x
  cases s
  · have ht : (toBits ⟨false, m, hm⟩).toNat = m := by
      rw [hn]
      exact (congrArg (· + m) (Nat.zero_mul _)).trans (Nat.zero_add m)
    rw [ofBits, mk.injEq, ht]
    exact ⟨decide_eq_false (Nat.not_le.mpr h), Nat.mod_eq_of_lt h⟩
  · have ht : (toBits ⟨true, m, hm⟩).toNat = 0x8000000000000000 + m := by
      rw [hn]
      exact congrArg (· + m) (Nat.one_mul _)
    rw [ofBits, mk.injEq, ht]
    exact ⟨decide_eq_true (Nat.le_add_right _ _), by
      rw [Nat.add_mod_left, Nat.mod_eq_of_lt h]⟩

theorem toBits_ofBits (bits : UInt64) : (ofBits bits).toBits = bits := by
  have hlt := bits.toNat_lt
  rw [← UInt64.toNat_inj, toNat_toBits]
  change (decide (0x8000000000000000 ≤ bits.toNat)).toNat * 0x8000000000000000
    + bits.toNat % 0x8000000000000000 = bits.toNat
  by_cases h : 0x8000000000000000 ≤ bits.toNat
  · rw [decide_eq_true h, Bool.toNat_true]
    omega
  · rw [decide_eq_false h, Bool.toNat_false]
    omega

end Binary64
end LineScript
