/-
# The search for the shortest digits

The value of a magnitude is a point of the finest grid, and what is rounded to the magnitude has no
gaps.  So if any point of a grid is rounded to the magnitude, then a neighbour of the value is,
which lies between the two (`not_readsBack_of_neighbours`).  Hence the grid on which the search
stops has such a point, and the next coarser one has none, if the search has come by it
(`search_found`).

Such a point has the fewest digits of all decimals that are rounded to the magnitude
(`shortest_lt`).  If another one had fewer, it would lie on a coarser grid, or else a power of ten
would lie between the two; either way the next grid would have had a point.
-/
import LineScript.Decimal.Shortest
import LineScript.Proofs.Rounding

namespace LineScript

namespace Decimal

open Binary64

/-! ### Grids -/

lemma inUnits_le_inUnits {c c' : Nat} (h : c ≤ c') (e : Int) : inUnits c e ≤ inUnits c' e := by
  have hpos := unitsPerOne_pos
  unfold inUnits
  gcongr

lemma inUnits_mul_pow (c j : Nat) (e : Int) : inUnits (c * 10 ^ j) e = inUnits c (e + j) := by
  rw [inUnits, inUnits, zpow_add₀ (by norm_num), zpow_natCast]
  push_cast
  ring

/-- The multiple `c` of `10 ^ (k - 1074)` is rounded to the magnitude `n`. -/
def ReadsBack (n k c : Nat) : Prop :=
  nearest c ((k : Int) - 1074) = n

lemma inUnits_grid (c k : Nat) : inUnits c ((k : Int) - 1074) = inUnits (c * 10 ^ k) (-1074) := by
  rw [inUnits_mul_pow, neg_add_eq_sub]

lemma readsBack_zero_iff {n v : Nat} : ReadsBack n 0 v ↔ nearest v (-1074) = n := Iff.rfl

/-- A point of a grid between two points that are rounded to the magnitude is so as well. -/
lemma readsBack_of_between {n k k₁ k₂ c c₁ c₂ : Nat} (h₁ : ReadsBack n k₁ c₁)
    (h₂ : ReadsBack n k₂ c₂) (hlow : c₁ * 10 ^ k₁ ≤ c * 10 ^ k)
    (hhigh : c * 10 ^ k ≤ c₂ * 10 ^ k₂) :
    ReadsBack n k c := by
  refine nearest_of_between h₁ h₂ ?_ ?_
  · rw [inUnits_grid, inUnits_grid]
    exact inUnits_le_inUnits hlow _
  · rw [inUnits_grid, inUnits_grid]
    exact inUnits_le_inUnits hhigh _

lemma mul_tenTo_shiftRight (m k : Nat) : (m * tenTo k) >>> k = m * 5 ^ k := by
  have hten : tenTo k = 5 ^ k * 2 ^ k := Nat.mul_pow 5 2 k
  rw [hten, ← mul_assoc, Nat.shiftRight_eq_div_pow, Nat.mul_div_cancel _ (by positivity)]

lemma five_pow_mul (k : Nat) : (5 : ℚ) ^ k * 10 ^ (-(k : Int)) * 2 ^ k = 1 := by
  have hten : (10 : ℚ) ^ k = 5 ^ k * 2 ^ k := by
    rw [← mul_pow]
    norm_num
  rw [zpow_neg, zpow_natCast, hten]
  field_simp

/-- The value of a magnitude is a point of the finest grid. -/
lemma inUnits_onFinest (n : Nat) : inUnits (onFinest n) (-1074) = units n := by
  have hexp : (-1074 : Int) = -((1074 : Nat) : Int) := rfl
  rw [inUnits, onFinest, mul_tenTo_shiftRight, Nat.cast_mul, Nat.cast_pow, Nat.cast_ofNat,
    mul_assoc, mul_assoc, ← mul_assoc (5 ^ 1074 : ℚ), unitsPerOne, hexp, five_pow_mul, mul_one]

lemma readsBack_onFinest {n : Nat} (hn : n ≤ infinity) : ReadsBack n 0 (onFinest n) :=
  readsBack_zero_iff.mpr (nearest_of_inUnits_eq (inUnits_onFinest n) hn)

/-! ### Neighbours -/

section Search

variable {n v k : Nat}

/-- On each grid a neighbour of the value is found that is rounded to the magnitude, or neither of
the two is. -/
lemma neighbour?_cases (n v k : Nat) :
    (∃ c, neighbour? n v k = some c ∧ ReadsBack n k c ∧ c ≤ v / 10 ^ k + 1) ∨
      neighbour? n v k = none ∧ ¬ReadsBack n k (v / 10 ^ k) ∧ ¬ReadsBack n k (v / 10 ^ k + 1) := by
  rw [← tenTo_eq]
  simp only [neighbour?, ReadsBack]
  by_cases hbelow : nearest (v / tenTo k) ((k : Int) - 1074) = n
  · by_cases habove : nearest (v / tenTo k + 1) ((k : Int) - 1074) = n
    · refine .inl ⟨_, by rw [decide_eq_true hbelow, decide_eq_true habove], ?_⟩
      split_ifs
      · exact ⟨hbelow, Nat.le_succ _⟩
      · exact ⟨habove, le_rfl⟩
    · exact .inl ⟨_, by simp [hbelow, habove], hbelow, Nat.le_succ _⟩
  · by_cases habove : nearest (v / tenTo k + 1) ((k : Int) - 1074) = n
    · exact .inl ⟨_, by simp [hbelow, habove], habove, le_rfl⟩
    · exact .inr ⟨by simp [hbelow, habove], hbelow, habove⟩

/-- If no neighbour of the value is rounded to its magnitude, then no point of the grid is. -/
lemma not_readsBack_of_neighbours (hv : ReadsBack n 0 v) (hbelow : ¬ReadsBack n k (v / 10 ^ k))
    (habove : ¬ReadsBack n k (v / 10 ^ k + 1)) (c : Nat) : ¬ReadsBack n k c := by
  intro hc
  rcases Nat.lt_or_ge (v / 10 ^ k) c with hlt | hge
  · refine habove (readsBack_of_between hv hc ?_ (Nat.mul_le_mul_right _ hlt))
    rw [pow_zero, mul_one, mul_comm]
    exact (Nat.lt_mul_div_succ v (by positivity)).le
  · refine hbelow (readsBack_of_between hc hv (Nat.mul_le_mul_right _ hge) ?_)
    rw [pow_zero, mul_one]
    exact Nat.div_mul_le_self v _

/-! ### The search -/

/-- The result stands for a point of the grid `k` that is rounded to the magnitude and next to the
value, and the next coarser grid has none, if the search has come by it. -/
structure Found (n v start k : Nat) (result : Nat × Int) : Prop where
  le_start : k ≤ start
  exponent_eq : result.2 = (k : Int) - 1074
  readsBack : ReadsBack n k result.1
  le_above : result.1 ≤ v / 10 ^ k + 1
  coarser : k < start → ∀ c, ¬ReadsBack n (k + 1) c

lemma search_found (hv : ReadsBack n 0 v) (start : Nat) :
    ∃ k, Found n v start k (search n v start) := by
  induction start with
  | zero =>
    refine ⟨0, le_rfl, rfl, hv, ?_, fun h => absurd h (Nat.lt_irrefl 0)⟩
    rw [pow_zero, Nat.div_one]
    exact Nat.le_succ v
  | succ start ih =>
    rcases neighbour?_cases n v (start + 1) with ⟨c, hfind, hreads, hle⟩ | ⟨hfind, hbelow, habove⟩
    · rw [search, hfind]
      exact ⟨start + 1, le_rfl, rfl, hreads, hle, fun h => absurd h (Nat.lt_irrefl _)⟩
    · rw [search, hfind]
      obtain ⟨k, hk⟩ := ih
      refine ⟨k, Nat.le_succ_of_le hk.le_start, hk.exponent_eq, hk.readsBack, hk.le_above, ?_⟩
      intro hlt
      rcases Nat.lt_or_eq_of_le hk.le_start with hpassed | rfl
      · exact hk.coarser hpassed
      · exact not_readsBack_of_neighbours hv hbelow habove

end Search

/-- The search starts on a grid whose step exceeds the half of the value. -/
lemma lt_two_mul_coarsest (v : Nat) : v < 2 * 10 ^ coarsest v := by
  have hlog : v < 2 ^ (v.log2 + 1) := Nat.lt_log2_self
  have hpow : 2 ^ v.log2 ≤ 10 ^ coarsest v := by
    have hexp : 28 * v.log2 ≤ coarsest v * 93 := by
      unfold coarsest
      omega
    refine (Nat.pow_le_pow_iff_left (show 93 ≠ 0 by decide)).mp ?_
    calc (2 ^ v.log2) ^ 93 = (2 ^ 93) ^ v.log2 := by rw [← pow_mul, ← pow_mul, Nat.mul_comm]
      _ ≤ (10 ^ 28) ^ v.log2 := Nat.pow_le_pow_left (by norm_num) _
      _ = 10 ^ (28 * v.log2) := (pow_mul _ _ _).symm
      _ ≤ 10 ^ (coarsest v * 93) := Nat.pow_le_pow_right (by norm_num) hexp
      _ = (10 ^ coarsest v) ^ 93 := pow_mul _ _ _
  rw [pow_succ] at hlog
  omega

/-- The digits found are rounded to the magnitude. -/
lemma nearest_shortest {n : Nat} (hn : n ≤ infinity) :
    nearest (shortest n).1 (shortest n).2 = n := by
  obtain ⟨k, hk⟩ := search_found (readsBack_onFinest hn) (coarsest (onFinest n))
  have hreads := hk.readsBack
  rw [ReadsBack, ← hk.exponent_eq] at hreads
  exact hreads

/-- If a decimal with fewer digits than a point of a grid is rounded to the same magnitude, then so
is a point of the next coarser grid. -/
lemma exists_readsBack_succ {n m s k c : Nat} {x : Int} (hm : m < 10 ^ s) (hs : s ≠ 0)
    (hmx : nearest m x = n) (hc : ReadsBack n k c) (hle : 10 ^ s ≤ c) :
    ∃ c', ReadsBack n (k + 1) c' := by
  rcases le_or_gt ((k + 1 : Nat) - 1074 : Int) x with hcoarse | hfine
  · -- the decimal itself lies on the next grid
    obtain ⟨j, hj⟩ := Int.le.dest hcoarse
    refine ⟨m * 10 ^ j, ?_⟩
    rw [ReadsBack, ← hmx, ← hj]
    exact nearest_congr (inUnits_mul_pow m j _)
  · -- a power of ten lies between the two
    obtain ⟨t, rfl⟩ := Nat.exists_eq_succ_of_ne_zero hs
    have hgrid : inUnits (10 ^ t) ((k + 1 : Nat) - 1074) =
        inUnits (10 ^ (t + 1)) ((k : Int) - 1074) := by
      rw [pow_succ, ← pow_one 10, ← pow_mul, Nat.one_mul, inUnits_mul_pow]
      congr 1
      omega
    refine ⟨10 ^ t, nearest_of_between hmx hc ?_ ?_⟩
    · rw [hgrid]
      obtain ⟨j, hj⟩ := Int.le.dest (show x ≤ (k : Int) - 1074 by omega)
      rw [← hj, ← inUnits_mul_pow]
      refine inUnits_le_inUnits (hm.le.trans ?_) x
      exact Nat.le_mul_of_pos_right _ (by positivity)
    · rw [hgrid]
      exact inUnits_le_inUnits hle _

/-- No decimal that is rounded to a magnitude other than zero has fewer digits than what is found.
-/
theorem shortest_lt {n m s : Nat} {x : Int} (hn : n ≠ 0) (hmx : nearest m x = n) (hm : m < 10 ^ s) :
    (shortest n).1 < 10 ^ s := by
  have hv := readsBack_onFinest (hmx ▸ nearest_le_infinity m x : n ≤ infinity)
  obtain ⟨k, hk⟩ := search_found hv (coarsest (onFinest n))
  by_contra hlt
  have hle : 10 ^ s ≤ (shortest n).1 := not_lt.mp hlt
  have hs : s ≠ 0 := by
    rintro rfl
    obtain rfl : m = 0 := by simpa using hm
    exact hn (by simp [← hmx, nearest])
  obtain ⟨c, hc⟩ := exists_readsBack_succ hm hs hmx hk.readsBack hle
  -- so the search has stopped at once, where the neighbours of the value are at most two
  have hstart : k = coarsest (onFinest n) :=
    le_antisymm hk.le_start (not_lt.mp fun hlt => hk.coarser hlt c hc)
  have habove : (shortest n).1 ≤ onFinest n / 10 ^ k + 1 := hk.le_above
  have hdiv : onFinest n / 10 ^ k < 2 := by
    rw [Nat.div_lt_iff_lt_mul (by positivity), hstart]
    exact lt_two_mul_coarsest _
  have hten : 10 ^ 1 ≤ 10 ^ s := Nat.pow_le_pow_right (by norm_num) (Nat.one_le_iff_ne_zero.mpr hs)
  omega

end Decimal
end LineScript
