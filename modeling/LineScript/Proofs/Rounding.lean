/-
# Rounding to the nearest binary number

A magnitude is rounded up past the pattern `n` if it lies beyond the middle between `n` and `n + 1`,
or on it if `n` is odd (`Binary64.RoundsAbove`).  This one condition says all about rounding: the
pattern of the nearest magnitude is above `n` if and only if the condition holds
(`Binary64.lt_nearest_iff`), and `Decimal.lt_nearest_iff` says the same of a coefficient with a
power of ten, where large and small exponents are settled without computing the power.  Since the
condition depends on the value alone, and is kept by larger values, so does the pattern, and it
grows with the value (`Decimal.nearest_le_nearest`).
-/
import LineScript.Decimal.Numeral
import Mathlib.Algebra.Order.Field.Power
import Mathlib.Data.Rat.Cast.Order
import Mathlib.Order.Monotone.Basic
import Mathlib.Tactic.FieldSimp
import Mathlib.Tactic.Linarith
import Mathlib.Tactic.Positivity
import Mathlib.Tactic.Ring

namespace LineScript

namespace Binary64

/-! ### Units -/

lemma leastNormal_eq : leastNormal = 2 ^ 52 := by
  norm_num [leastNormal]

lemma leastNormal_pos : 0 < leastNormal := by
  decide

/-- From `(s + 1) · leastNormal` to `(s + 2) · leastNormal` the patterns step by `2 ^ s` units, and
for `s = 0` so do those below. -/
lemma units_eq {s n : Nat} (hlow : s = 0 ∨ (s + 1) * leastNormal ≤ n)
    (hhigh : n ≤ (s + 2) * leastNormal) : units n = (n - s * leastNormal) * 2 ^ s := by
  have hpos := leastNormal_pos
  have hone : (s + 1) * leastNormal = s * leastNormal + leastNormal := Nat.succ_mul _ _
  have htwo : (s + 2) * leastNormal = s * leastNormal + leastNormal + leastNormal := by
    rw [← hone]
    exact Nat.succ_mul _ _
  unfold units
  by_cases hsmall : n < leastNormal
  · have hs : s = 0 := by omega
    simp [hsmall, hs]
  have hlow : (s + 1) * leastNormal ≤ n := by
    rcases hlow with rfl | hlow
    · omega
    · exact hlow
  rw [if_neg hsmall, Nat.shiftLeft_eq]
  rcases Nat.lt_or_eq_of_le hhigh with hlt | rfl
  · have hdiv : n / leastNormal = s + 1 := Nat.div_eq_of_lt_le hlow hlt
    have hmod : n % leastNormal = n - (s + 1) * leastNormal := by
      rw [Nat.mod_eq_sub_div_mul, hdiv]
    rw [hdiv, hmod, Nat.add_sub_cancel]
    congr 1
    omega
  · -- the first pattern with the next step
    have hsub : (s + 2) * leastNormal - s * leastNormal = 2 * leastNormal := by omega
    rw [Nat.mul_mod_left, Nat.mul_div_cancel _ hpos, hsub, Nat.add_zero]
    show leastNormal * 2 ^ (s + 1) = _
    rw [pow_succ]
    ring

/-- Every pattern but the last of a range lies in the range with the next one. -/
lemma exists_range (n : Nat) :
    ∃ s, (s = 0 ∨ (s + 1) * leastNormal ≤ n) ∧ n < (s + 2) * leastNormal := by
  have hpos := leastNormal_pos
  have hlow : n / leastNormal * leastNormal ≤ n := Nat.div_mul_le_self n leastNormal
  have hhigh : n < (n / leastNormal + 1) * leastNormal := by
    rw [Nat.mul_comm]
    exact Nat.lt_mul_div_succ n hpos
  cases hs : n / leastNormal with
  | zero =>
    rw [hs] at hhigh
    exact ⟨0, .inl rfl, by omega⟩
  | succ s =>
    rw [hs] at hlow hhigh
    exact ⟨s, .inr hlow, hhigh⟩

lemma strictMono_units : StrictMono units := by
  refine strictMono_nat_of_lt_succ fun n => ?_
  obtain ⟨s, hlow, hhigh⟩ := exists_range n
  have hstep : n - s * leastNormal < n + 1 - s * leastNormal := by
    have hle : s * leastNormal ≤ n := by
      rcases hlow with rfl | hlow
      · omega
      · exact le_trans (Nat.mul_le_mul_right _ (Nat.le_succ s)) hlow
    omega
  rw [units_eq hlow hhigh.le, units_eq (hlow.imp_right Nat.le_succ_of_le) hhigh]
  exact Nat.mul_lt_mul_of_pos_right hstep (by positivity)

/-! ### Rounding a quotient -/

lemma roundDiv_cases (num den : Nat) :
    roundDiv num den = num / den ∧ 2 * (num % den) ≤ den ∨
      roundDiv num den = num / den + 1 ∧ den ≤ 2 * (num % den) := by
  unfold roundDiv
  dsimp only
  split_ifs <;> omega

/-- A quotient is rounded up past `r` if it is more than `r + 1 / 2`, or just that and `r` is odd.
-/
lemma lt_roundDiv_iff {num den : Nat} (hden : 0 < den) (r : Nat) :
    r < roundDiv num den ↔
      (2 * r + 1) * den < 2 * num ∨ (2 * r + 1) * den = 2 * num ∧ r % 2 = 1 := by
  have hnum : den * (num / den) + num % den = num := Nat.div_add_mod num den
  have hrem : num % den < den := Nat.mod_lt num hden
  have hexpand : (2 * r + 1) * den = 2 * (den * r) + den := by ring
  rcases lt_trichotomy r (num / den) with hlt | rfl | hgt
  · have hmul : den * (r + 1) ≤ den * (num / den) := Nat.mul_le_mul_left den hlt
    rw [Nat.mul_succ] at hmul
    have hround := roundDiv_cases num den
    omega
  · -- the quotient lies between `r` and `r + 1`, so the remainder decides
    generalize hq : num / den = q at *
    unfold roundDiv
    dsimp only
    rw [hq]
    split_ifs <;> omega
  · have hmul : den * (num / den + 1) ≤ den * r := Nat.mul_le_mul_left den hgt
    rw [Nat.mul_succ] at hmul
    have hround := roundDiv_cases num den
    omega

/-! ### Rounding to a magnitude -/

/-- A value of so many units is rounded to a magnitude above the pattern `n`: it lies beyond the
middle between `n` and `n + 1`, or on it if `n` is odd. -/
def RoundsAbove (n : Nat) (q : ℚ) : Prop :=
  (units n + units (n + 1) : ℚ) < 2 * q ∨ (units n + units (n + 1) : ℚ) = 2 * q ∧ n % 2 = 1

lemma RoundsAbove.mono {n : Nat} {q q' : ℚ} (h : RoundsAbove n q) (hq : q ≤ q') :
    RoundsAbove n q' := by
  rcases h with h | ⟨h, hodd⟩
  · exact .inl (by linarith)
  · rcases hq.lt_or_eq with hlt | rfl
    · exact .inl (by linarith)
    · exact .inr ⟨h, hodd⟩

lemma roundsAbove_div {num den : Nat} (hden : 0 < den) (n : Nat) :
    RoundsAbove n (num / den) ↔
      (units n + units (n + 1)) * den < 2 * num ∨
        (units n + units (n + 1)) * den = 2 * num ∧ n % 2 = 1 := by
  have hden : (0 : ℚ) < den := by exact_mod_cast hden
  have htwo : (2 : ℚ) * (num / den) = 2 * num / den := by ring
  rw [RoundsAbove, htwo, lt_div_iff₀ hden, eq_div_iff hden.ne']
  norm_cast

/-- The range in which a whole number of units lies. -/
lemma shift_bounds (m : Nat) :
    (m.log2 - 52 = 0 ∨ leastNormal * 2 ^ (m.log2 - 52) ≤ m) ∧
      m < 2 * leastNormal * 2 ^ (m.log2 - 52) := by
  have hupper : m < 2 ^ (m.log2 + 1) := Nat.lt_log2_self
  have htwo : 2 * leastNormal = 2 ^ 53 := by rw [leastNormal_eq]; norm_num
  rw [htwo, leastNormal_eq, ← pow_add, ← pow_add]
  constructor
  · by_cases hs : m.log2 ≤ 52
    · exact .inl (by omega)
    · have hm : m ≠ 0 := by
        rintro rfl
        simp at hs
      have hexp : 52 + (m.log2 - 52) = m.log2 := by omega
      rw [hexp]
      exact .inr (Nat.log2_self_le hm)
  · exact hupper.trans_le (Nat.pow_le_pow_right (by decide) (by omega))

/-- A quotient in the range with steps of `2 ^ s` units is rounded up past a pattern if the quotient
of the steps is rounded up past the place of the pattern in the range. -/
lemma lt_add_roundDiv_iff {num den s : Nat} (hden : 0 < den)
    (hlow : s = 0 ∨ leastNormal * (den * 2 ^ s) ≤ num)
    (hhigh : num < 2 * leastNormal * (den * 2 ^ s)) (n : Nat) :
    n < s * leastNormal + roundDiv num (den * 2 ^ s) ↔
      (units n + units (n + 1)) * den < 2 * num ∨
        (units n + units (n + 1)) * den = 2 * num ∧ n % 2 = 1 := by
  have hpos : 0 < den * 2 ^ s := by positivity
  have hone : (s + 1) * leastNormal = s * leastNormal + leastNormal := Nat.succ_mul _ _
  have htwo : (s + 2) * leastNormal = s * leastNormal + 2 * leastNormal := by ring
  have hsucc : units n < units (n + 1) := strictMono_units (Nat.lt_succ_self n)
  have hround : ∀ r, r < roundDiv num (den * 2 ^ s) ↔ _ := lt_roundDiv_iff hpos
  generalize hD : den * 2 ^ s = D at hlow hhigh hpos hround ⊢
  by_cases habove : (s + 2) * leastNormal ≤ n
  · -- above the range
    have hunits : 2 * leastNormal * 2 ^ s ≤ units n := by
      have hend : units ((s + 2) * leastNormal) = 2 * leastNormal * 2 ^ s := by
        rw [units_eq (.inr (Nat.mul_le_mul_right _ (Nat.le_succ _))) le_rfl, htwo,
          Nat.add_sub_cancel_left]
      exact hend ▸ strictMono_units.monotone habove
    have hsum : 2 * (2 * leastNormal * D) ≤ (units n + units (n + 1)) * den := by
      calc 2 * (2 * leastNormal * D) = 2 * (2 * leastNormal * 2 ^ s) * den := by
            rw [← hD]
            ring
        _ ≤ (units n + units (n + 1)) * den := Nat.mul_le_mul_right den (by omega)
    have hr : ¬2 * leastNormal < roundDiv num D := by
      rw [hround]
      have hexpand : (2 * (2 * leastNormal) + 1) * D = 2 * (2 * leastNormal * D) + D := by ring
      omega
    exact iff_of_false (by omega) (by omega)
  by_cases hin : s = 0 ∨ (s + 1) * leastNormal ≤ n
  · -- in the range
    have hle : s * leastNormal ≤ n := by
      rcases hin with rfl | hin
      · omega
      · omega
    have hsum : (units n + units (n + 1)) * den = (2 * (n - s * leastNormal) + 1) * D := by
      have hnext : n + 1 - s * leastNormal = n - s * leastNormal + 1 := by omega
      rw [units_eq hin (by omega), units_eq (hin.imp_right Nat.le_succ_of_le) (by omega), hnext,
        ← hD]
      ring
    have hparity : (n - s * leastNormal) % 2 = n % 2 := by
      have heven : s * leastNormal = 2 * (s * 2 ^ 51) := by
        rw [leastNormal_eq]
        ring
      omega
    have hplace : n < s * leastNormal + roundDiv num D ↔ n - s * leastNormal < roundDiv num D := by
      omega
    rw [hplace, hround, hsum, hparity]
  · -- below the range
    obtain ⟨hs, hlt⟩ : s ≠ 0 ∧ n < (s + 1) * leastNormal := by
      simpa only [not_or, not_le] using hin
    have hlow := hlow.resolve_left hs
    have hunits : units (n + 1) ≤ leastNormal * 2 ^ s := by
      have hstart : units ((s + 1) * leastNormal) = leastNormal * 2 ^ s := by
        rw [units_eq (.inr le_rfl) (by omega), hone, Nat.add_sub_cancel_left]
      exact hstart ▸ strictMono_units.monotone (Nat.succ_le_of_lt hlt)
    have hsum : (units n + units (n + 1)) * den < 2 * (leastNormal * D) := by
      calc (units n + units (n + 1)) * den < 2 * (leastNormal * 2 ^ s) * den :=
            Nat.mul_lt_mul_of_pos_right (by omega) hden
        _ = 2 * (leastNormal * D) := by
            rw [← hD]
            ring
    have hr : leastNormal - 1 < roundDiv num D := by
      rw [hround]
      have hexpand : (2 * (leastNormal - 1) + 1) * D + D = 2 * (leastNormal * D) := by
        have hpred : 2 * (leastNormal - 1) + 1 + 1 = 2 * leastNormal := by
          have := leastNormal_pos
          omega
        rw [← Nat.succ_mul, Nat.succ_eq_add_one, hpred]
        ring
      omega
    exact iff_of_true (by omega) (by omega)

/-- The nearest magnitude to a quotient is above `n` if and only if the quotient is rounded up past
`n`. -/
theorem lt_nearest_iff {num den : Nat} (hden : 0 < den) (n : Nat) :
    n < nearest num den ↔ n < infinity ∧ RoundsAbove n (num / den) := by
  rw [nearest, lt_min_iff, and_comm, roundsAbove_div hden]
  refine and_congr_right fun _ => ?_
  obtain ⟨hlow, hhigh⟩ := shift_bounds (num / den)
  generalize (num / den).log2 - 52 = s at hlow hhigh ⊢
  rw [Nat.shiftLeft_eq]
  refine lt_add_roundDiv_iff hden ?_ ?_ n
  · refine hlow.imp_right fun hlow => ?_
    calc leastNormal * (den * 2 ^ s) = leastNormal * 2 ^ s * den := by ring
      _ ≤ num / den * den := Nat.mul_le_mul_right den hlow
      _ ≤ num := Nat.div_mul_le_self num den
  · calc num < den * (num / den + 1) := Nat.lt_mul_div_succ num hden
      _ ≤ den * (2 * leastNormal * 2 ^ s) := Nat.mul_le_mul_left den hhigh
      _ = 2 * leastNormal * (den * 2 ^ s) := by ring

lemma roundsAbove_of_units_le {n m : Nat} {q : ℚ} (h : n < m) (hq : units m ≤ q) :
    RoundsAbove n q := by
  have hlt : units n < units (n + 1) := strictMono_units (Nat.lt_succ_self n)
  have hle : units (n + 1) ≤ units m := strictMono_units.monotone h
  have hsum : (units n + units (n + 1) : ℚ) < 2 * units m := by
    norm_cast
    omega
  exact .inl (by linarith)

lemma not_roundsAbove_of_le_units {n m : Nat} {q : ℚ} (h : m ≤ n) (hq : q ≤ units m) :
    ¬RoundsAbove n q := by
  have hlt : units n < units (n + 1) := strictMono_units (Nat.lt_succ_self n)
  have hle : units m ≤ units n := strictMono_units.monotone h
  have hsum : (2 * units m : ℚ) < units n + units (n + 1) := by
    norm_cast
    omega
  rintro (hlow | ⟨hmid, -⟩) <;> linarith

/-- Less than half a unit is rounded to zero. -/
lemma not_roundsAbove_of_lt_half {q : ℚ} (hq : 2 * q < 1) (n : Nat) : ¬RoundsAbove n q := by
  have hlt : units n < units (n + 1) := strictMono_units (Nat.lt_succ_self n)
  have hsum : (1 : ℚ) ≤ units n + units (n + 1) := by
    norm_cast
    omega
  rintro (hlow | ⟨hmid, -⟩) <;> linarith

lemma units_infinity : units infinity = 2 ^ 2098 := by
  decide +kernel

end Binary64

namespace Decimal

open Binary64

/-! ### Rounding a decimal -/

/-- The number of units in one. -/
@[irreducible] def unitsPerOne : ℚ := 2 ^ 1074

/-- The value of `c · 10 ^ e` in units. -/
def inUnits (c : Nat) (e : Int) : ℚ :=
  c * 10 ^ e * unitsPerOne

lemma unitsPerOne_pos : 0 < unitsPerOne := by
  unfold unitsPerOne
  positivity

lemma unitsPerOne_le : unitsPerOne ≤ 10 ^ (358 : Int) := by
  calc unitsPerOne = 2 ^ (3 * 358) := by
        rw [unitsPerOne]
    _ = (2 ^ 3) ^ 358 := pow_mul 2 3 358
    _ ≤ 10 ^ 358 := pow_le_pow_left₀ (by norm_num) (by norm_num) 358
    _ = 10 ^ (358 : Int) := (zpow_natCast 10 358).symm

lemma tenTo_eq (k : Nat) : tenTo k = 10 ^ k := rfl

lemma cast_shiftLeft (m k : Nat) : ((m <<< k : Nat) : ℚ) = m * 2 ^ k := by
  rw [Nat.shiftLeft_eq, Nat.cast_mul, Nat.cast_pow, Nat.cast_ofNat]

lemma inUnits_natCast (c k : Nat) :
    inUnits c k = ((c * tenTo k) <<< 1074 : Nat) / (1 : Nat) := by
  rw [inUnits, cast_shiftLeft, ← unitsPerOne, tenTo_eq, Nat.cast_one, div_one, zpow_natCast]
  push_cast
  rfl

lemma inUnits_negSucc (c k : Nat) :
    inUnits c (.negSucc k) = (c <<< 1074 : Nat) / (tenTo (k + 1) : Nat) := by
  rw [inUnits, cast_shiftLeft, ← unitsPerOne, tenTo_eq, zpow_negSucc]
  push_cast
  field_simp

lemma units_infinity_le_inUnits {c : Nat} {e : Int} (hc : c ≠ 0) (he : 400 < e) :
    (units infinity : ℚ) ≤ inUnits c e := by
  have hc : (1 : ℚ) ≤ c := by exact_mod_cast Nat.one_le_iff_ne_zero.mpr hc
  have hpow : (2 : ℚ) ^ 1024 ≤ 10 ^ e := by
    calc (2 : ℚ) ^ 1024 ≤ 2 ^ (3 * 401) := pow_le_pow_right₀ (by norm_num) (by norm_num)
      _ = (2 ^ 3) ^ 401 := pow_mul 2 3 401
      _ ≤ 10 ^ 401 := pow_le_pow_left₀ (by norm_num) (by norm_num) 401
      _ = 10 ^ (401 : Int) := (zpow_natCast 10 401).symm
      _ ≤ 10 ^ e := zpow_le_zpow_right₀ (by norm_num) (by omega)
  calc (units infinity : ℚ) = 2 ^ 1024 * unitsPerOne := by
        rw [units_infinity, Nat.cast_pow, unitsPerOne]
        exact pow_add 2 1024 1074
    _ ≤ 10 ^ e * unitsPerOne := mul_le_mul_of_nonneg_right hpow unitsPerOne_pos.le
    _ = 1 * 10 ^ e * unitsPerOne := by rw [one_mul]
    _ ≤ c * 10 ^ e * unitsPerOne :=
        mul_le_mul_of_nonneg_right (mul_le_mul_of_nonneg_right hc (by positivity))
          unitsPerOne_pos.le

/-- The value is out of reach of the least magnitude. -/
lemma inUnits_lt_half {c : Nat} {e : Int} (he : e + c.log2 < -400) : 2 * inUnits c e < 1 := by
  have hc : (c : ℚ) ≤ 2 * 10 ^ (c.log2 : Int) := by
    have hlog : c < 2 ^ (c.log2 + 1) := Nat.lt_log2_self
    have hpow : 2 ^ (c.log2 + 1) ≤ 2 * 10 ^ c.log2 := by
      rw [pow_succ, Nat.mul_comm]
      exact Nat.mul_le_mul_left 2 (Nat.pow_le_pow_left (by norm_num) _)
    rw [zpow_natCast]
    exact_mod_cast hlog.le.trans hpow
  have hpow : (10 : ℚ) ^ (c.log2 : Int) * 10 ^ e ≤ 10 ^ (-401 : Int) := by
    rw [← zpow_add₀ (by norm_num)]
    exact zpow_le_zpow_right₀ (by norm_num) (by omega)
  calc 2 * inUnits c e = 2 * (c * 10 ^ e * unitsPerOne) := rfl
    _ ≤ 2 * (2 * 10 ^ (c.log2 : Int) * 10 ^ e * unitsPerOne) := by
        have hpos := unitsPerOne_pos
        gcongr
    _ = 4 * (10 ^ (c.log2 : Int) * 10 ^ e) * unitsPerOne := by ring
    _ ≤ 4 * 10 ^ (-401 : Int) * 10 ^ (358 : Int) := by
        have hpos := unitsPerOne_pos
        have hle := unitsPerOne_le
        gcongr
    _ = 4 * 10 ^ (-43 : Int) := by
        rw [mul_assoc, ← zpow_add₀ (by norm_num)]
        norm_num
    _ < 1 := by norm_num

/-- The nearest magnitude to `c · 10 ^ e` is above `n` if and only if the value is rounded up past
`n`. -/
theorem lt_nearest_iff (c : Nat) (e : Int) (n : Nat) :
    n < nearest c e ↔ n < infinity ∧ RoundsAbove n (inUnits c e) := by
  unfold nearest
  split_ifs with hzero hlarge hsmall
  · have hunits : 2 * inUnits c e < 1 := by simp [inUnits, hzero]
    exact iff_of_false (Nat.not_lt_zero n) fun h => not_roundsAbove_of_lt_half hunits n h.2
  · refine (and_iff_left_of_imp fun hn => ?_).symm
    exact roundsAbove_of_units_le hn (units_infinity_le_inUnits hzero hlarge)
  · have hunits := inUnits_lt_half hsmall
    exact iff_of_false (Nat.not_lt_zero n) fun h => not_roundsAbove_of_lt_half hunits n h.2
  · match e with
    | .ofNat k =>
      rw [Binary64.lt_nearest_iff Nat.one_pos, ← inUnits_natCast]
      rfl
    | .negSucc k =>
      have hden : 0 < tenTo (k + 1) := by
        rw [tenTo_eq]
        positivity
      rw [Binary64.lt_nearest_iff hden, ← inUnits_negSucc]

section Nearest

variable {c c' n : Nat} {e e' : Int}

/-- A larger value has no smaller nearest magnitude. -/
lemma nearest_le_nearest (h : inUnits c e ≤ inUnits c' e') : nearest c e ≤ nearest c' e' := by
  refine le_of_forall_lt fun n hn => ?_
  obtain ⟨hfin, habove⟩ := (lt_nearest_iff c e n).mp hn
  exact (lt_nearest_iff c' e' n).mpr ⟨hfin, habove.mono h⟩

lemma nearest_congr (h : inUnits c e = inUnits c' e') : nearest c e = nearest c' e' :=
  le_antisymm (nearest_le_nearest h.le) (nearest_le_nearest h.ge)

/-- A value that is a magnitude is its own nearest magnitude. -/
lemma nearest_of_inUnits_eq (h : inUnits c e = units n) (hn : n ≤ infinity) : nearest c e = n := by
  refine eq_of_forall_lt_iff fun m => ?_
  rw [lt_nearest_iff, h]
  constructor
  · rintro ⟨-, habove⟩
    by_contra hle
    exact not_roundsAbove_of_le_units (not_lt.mp hle) le_rfl habove
  · intro hm
    exact ⟨hm.trans_le hn, roundsAbove_of_units_le hm le_rfl⟩

/-- Values that are rounded to one magnitude have no other between them. -/
lemma nearest_of_between {c₁ c₂ : Nat} {e₁ e₂ : Int} (h₁ : nearest c₁ e₁ = n)
    (h₂ : nearest c₂ e₂ = n) (hlow : inUnits c₁ e₁ ≤ inUnits c e)
    (hhigh : inUnits c e ≤ inUnits c₂ e₂) : nearest c e = n :=
  le_antisymm (h₂ ▸ nearest_le_nearest hhigh) (h₁ ▸ nearest_le_nearest hlow)

end Nearest

end Decimal
end LineScript
