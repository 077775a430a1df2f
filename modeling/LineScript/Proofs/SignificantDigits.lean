/-
# Significant digits

The significant digits of a number text are those in front of its exponent, less the zeros at both
ends.  They bound the number that the digits spell, and are bounded by it: digits of which `k` are
significant spell a number below `10 ^ k` times a power of ten (`exists_lt_of_significant`), and
digits that spell a number below `10 ^ k` have at most `k` significant ones
(`significant_le_of_lt`).  For a text that is read as a number, these digits are those on both sides
of its point (`Parts.Spell.coefficientDigits_eq`).
-/
import LineScript.Proofs.WrittenValue
import Mathlib.Data.List.DropRight

namespace LineScript

namespace Decimal

/-- The number of digits without the zeros at both ends. -/
def significant (ds : Text) : Nat :=
  ((ds.rdropWhile (· = '0')).dropWhile (· = '0')).length

/-- The digits of a text in front of its exponent. -/
def coefficientDigits (s : Text) : Text :=
  (s.takeWhile fun c => c ≠ 'e' ∧ c ≠ 'E').filter Char.isDigit

/-- The number of significant digits of a number text. -/
def significantDigits (s : Text) : Nat := significant (coefficientDigits s)

/-! ### Digits and what they spell -/

lemma ofDigits_cons_zero (ds : Text) : ofDigits ('0' :: ds) = ofDigits ds := by
  have h := ofDigits_append ['0'] ds
  rwa [show ofDigits ['0'] = 0 from ofDigits_replicate_zero 1, Nat.zero_mul, Nat.zero_add] at h

lemma ofDigits_dropWhile (ds : Text) : ofDigits (ds.dropWhile (· = '0')) = ofDigits ds := by
  induction ds with
  | nil => rfl
  | cons d ds ih =>
    by_cases hd : d = '0'
    · subst hd
      rw [ofDigits_cons_zero, ← ih]
      rfl
    · simp [hd]

lemma ofDigits_replicate_append (k : Nat) (ds : Text) :
    ofDigits (List.replicate k '0' ++ ds) = ofDigits ds := by
  rw [ofDigits_append, ofDigits_replicate_zero, Nat.zero_mul, Nat.zero_add]

lemma digitValue_pos {c : Char} (h : c ∈ digits) (hne : c ≠ '0') : 1 ≤ digitValue c := by
  have hall : digits.all (fun c => c = '0' ∨ 1 ≤ digitValue c) = true := by decide
  have hc := of_decide_eq_true (List.all_eq_true.mp hall c h)
  exact hc.resolve_left hne

/-- Digits of which the first is not zero spell no small number. -/
lemma pow_le_ofDigits {d : Char} {ds : Text} (hd : d ∈ digits) (hne : d ≠ '0') :
    10 ^ ds.length ≤ ofDigits (d :: ds) := by
  have hone : ofDigits [d] = digitValue d := by
    rw [ofDigits_eq]
    simp
  rw [← List.singleton_append, ofDigits_append, hone]
  exact (Nat.le_mul_of_pos_left _ (digitValue_pos hd hne)).trans (Nat.le_add_right _ _)

/-- The zeros at the end of a list of digits. -/
lemma exists_zeros (ds : Text) : ∃ k, ds = ds.rdropWhile (· = '0') ++ List.replicate k '0' := by
  refine ⟨(ds.rtakeWhile (· = '0')).length, ?_⟩
  have hzeros : ds.rtakeWhile (· = '0') = List.replicate (ds.rtakeWhile (· = '0')).length '0' := by
    refine List.eq_replicate_iff.mpr ⟨rfl, fun c hc => ?_⟩
    simpa using List.mem_rtakeWhile_imp hc
  rw [← hzeros]
  exact List.rdropWhile_append_rtakeWhile.symm

/-- Digits spell a number with no more digits than are significant, times a power of ten. -/
lemma exists_lt_of_significant {ds : Text} (h : ∀ c ∈ ds, c ∈ digits) :
    ∃ m k, ofDigits ds = m * 10 ^ k ∧ m < 10 ^ significant ds := by
  obtain ⟨k, hk⟩ := exists_zeros ds
  refine ⟨ofDigits (ds.rdropWhile (· = '0')), k, ?_, ?_⟩
  · conv_lhs => rw [hk]
    exact ofDigits_append_zeros _ _
  · rw [← ofDigits_dropWhile]
    refine ofDigits_lt fun c hc => h c ?_
    exact (List.rdropWhile_prefix _ _).subset ((List.dropWhile_suffix _).subset hc)

/-- A number with few digits is spelled with few significant digits. -/
lemma significant_le_of_lt {ds : Text} {n : Nat} (h : ∀ c ∈ ds, c ∈ digits)
    (hlt : ofDigits ds < 10 ^ n) : significant ds ≤ n := by
  obtain ⟨k, hk⟩ := exists_zeros ds
  have hle : ofDigits (ds.rdropWhile (· = '0')) ≤ ofDigits ds := by
    conv_rhs => rw [hk]
    rw [ofDigits_append_zeros]
    exact Nat.le_mul_of_pos_right _ (by positivity)
  unfold significant
  cases hu : (ds.rdropWhile (· = '0')).dropWhile (· = '0') with
  | nil => exact Nat.zero_le n
  | cons d u =>
    have hmem : d ∈ ds := by
      have hd : d ∈ (ds.rdropWhile (· = '0')).dropWhile (· = '0') := hu ▸ List.mem_cons_self
      exact (List.rdropWhile_prefix _ _).subset ((List.dropWhile_suffix _).subset hd)
    have hne : d ≠ '0' := by
      have hhead := List.head?_dropWhile_not (· = '0') (ds.rdropWhile (· = '0'))
      rw [hu] at hhead
      simpa using hhead
    have hpow : 10 ^ u.length < 10 ^ n := by
      calc 10 ^ u.length ≤ ofDigits (d :: u) := pow_le_ofDigits (h d hmem) hne
        _ = ofDigits (ds.rdropWhile (· = '0')) := by rw [← hu, ofDigits_dropWhile]
        _ < 10 ^ n := hle.trans_lt hlt
    exact (Nat.pow_lt_pow_iff_right (by norm_num)).mp hpow

/-- Zeros at the end are not significant. -/
lemma significant_append_zeros (ds : Text) (k : Nat) :
    significant (ds ++ List.replicate k '0') = significant ds := by
  induction k with
  | zero => rw [List.replicate_zero, List.append_nil]
  | succ k ih =>
    rw [List.replicate_succ', ← List.append_assoc, significant,
      List.rdropWhile_concat_pos _ _ _ (by decide)]
    exact ih

/-! ### The digits of a text -/

lemma filter_cut {t whole fraction : Text} (h : Cut t whole fraction) :
    t.filter Char.isDigit = whole ++ fraction := by
  have hdigits : ∀ {ds : Text}, (∀ c ∈ ds, c ∈ digits) → ds.filter Char.isDigit = ds := fun hds =>
    List.filter_eq_self.mpr fun c hc => mem_digits_iff.mp (hds c hc)
  have hwhole := hdigits h.whole_digits
  have hfraction := hdigits h.fraction_digits
  rcases h.text_eq with rfl | ⟨rfl, rfl⟩
  · rw [List.filter_append, hwhole, List.filter_cons_of_neg (by decide), hfraction]
  · rw [hwhole, List.append_nil]

/-- No mark of an exponent is among digits and a point. -/
lemma not_mark_of_cut {t whole fraction : Text} (h : Cut t whole fraction) :
    ∀ c ∈ t, c ≠ 'e' ∧ c ≠ 'E' := by
  intro c hc
  suffices hmem : c ∈ '.' :: digits by
    constructor
    · rintro rfl
      exact absurd hmem (by decide)
    · rintro rfl
      exact absurd hmem (by decide)
  rcases h.text_eq with rfl | ⟨-, rfl⟩
  · rcases List.mem_append.mp hc with hc | hc
    · exact List.mem_cons_of_mem _ (h.whole_digits c hc)
    · rcases List.mem_cons.mp hc with rfl | hc
      · exact List.mem_cons_self
      · exact List.mem_cons_of_mem _ (h.fraction_digits c hc)
  · exact List.mem_cons_of_mem _ (h.whole_digits c hc)

lemma Signed.coefficientDigits_eq {negative : Bool} {t s : Text} (h : Signed negative t s) :
    coefficientDigits s = coefficientDigits t := by
  cases h with
  | unsigned => rfl
  | plus | minus => simp [coefficientDigits]

lemma ExponentPart.takeWhile_eq_nil {x : Int} {e : Text} (h : ExponentPart x e) :
    (e.takeWhile fun c => c ≠ 'e' ∧ c ≠ 'E') = [] := by
  cases h with
  | missing => rfl
  | marked hmark =>
    refine List.takeWhile_cons_of_neg ?_
    rcases List.mem_pair.mp hmark with rfl | rfl <;> simp

/-- The digits of a text in front of its exponent are those on both sides of the point. -/
lemma Parts.Spell.coefficientDigits_eq {p : Parts} {s : Text} (h : p.Spell s) :
    coefficientDigits s = p.whole ++ p.fraction := by
  obtain ⟨t, e, hcut, -, hexp, hsigned⟩ := h
  have hmark : ∀ c ∈ t, decide (c ≠ 'e' ∧ c ≠ 'E') = true := fun c hc =>
    decide_eq_true (not_mark_of_cut hcut c hc)
  rw [hsigned.coefficientDigits_eq, coefficientDigits, List.takeWhile_append_of_pos hmark,
    hexp.takeWhile_eq_nil, List.append_nil, filter_cut hcut]

end Decimal
end LineScript
