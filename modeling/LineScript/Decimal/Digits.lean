/-
# Reading digits

The number that a list of digits spells, the first digit being the most significant one.  A long
list is read by joining neighbours: pairs of digits are the digits of the same number to the square
of the base, and there are half as many of them.  `ofDigits_eq` says that this gives the number that
reading digit by digit gives.
-/

import LineScript.Token

namespace LineScript
namespace Decimal

/-- The value of a digit. -/
def digitValue (c : Char) : Nat :=
  c.toNat - '0'.toNat

/-- The number with the given digits to a base, the first digit being the least significant one. -/
def horner (base : Nat) (ds : List Nat) : Nat :=
  ds.foldr (fun d n => d + base * n) 0

/-- Joins each two neighbours to a digit to the square of the base. -/
def pairUp (base : Nat) : List Nat → List Nat
  | low :: high :: ds => (low + base * high) :: pairUp base ds
  | ds => ds

theorem length_pairUp_le (base : Nat) (ds : List Nat) :
    (pairUp base ds).length ≤ ds.length := by
  fun_induction pairUp base ds with
  | case1 low high ds ih =>
    simp only [List.length_cons]
    omega
  | case2 => exact Nat.le_refl _

/-- Joining neighbours leaves the number as it is. -/
theorem horner_pairUp (base : Nat) (ds : List Nat) :
    horner (base * base) (pairUp base ds) = horner base ds := by
  fun_induction pairUp base ds with
  | case1 low high ds ih =>
    change low + base * high + base * base * horner (base * base) (pairUp base ds)
      = low + base * (high + base * horner base ds)
    rw [ih, Nat.mul_add, Nat.add_assoc, Nat.mul_assoc]
  | case2 ds h =>
    match ds, h with
    | [], _ => rfl
    | [d], _ => rfl
    | low :: high :: rest, h => exact absurd rfl (h low high rest)

/-- The number with the given digits, the first being the least significant one, by joining
neighbours until one digit is left. -/
def join (base : Nat) : List Nat → Nat
  | [] => 0
  | [d] => d
  | low :: high :: ds => join (base * base) ((low + base * high) :: pairUp base ds)
termination_by ds => ds.length
decreasing_by
  have := length_pairUp_le base ds
  simp only [List.length_cons]
  omega

theorem join_eq_horner (base : Nat) (ds : List Nat) : join base ds = horner base ds := by
  fun_induction join base ds with
  | case1 => rfl
  | case2 => rfl
  | case3 base low high ds ih =>
    rw [ih]
    exact horner_pairUp base (low :: high :: ds)

/-- The number that decimal digits spell. -/
def ofDigits (ds : Text) : Nat :=
  join 10 (ds.reverse.map digitValue)

/-- Digits can be read one by one. -/
theorem ofDigits_eq (ds : Text) :
    ofDigits ds = ds.foldl (fun n d => 10 * n + digitValue d) 0 := by
  have hadd : (fun (n : Nat) (d : Char) => 10 * n + digitValue d)
      = fun n d => digitValue d + 10 * n := by
    funext n d
    exact Nat.add_comm _ _
  rw [ofDigits, join_eq_horner, horner, List.foldr_map, List.foldr_reverse, hadd]

end Decimal
end LineScript
