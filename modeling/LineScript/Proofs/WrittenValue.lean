/-
# The value that a number text writes

A number is written with a sign, digits before and behind a point, and an exponent (`Parts`), and
these parts give it an exact rational value.  Every text that is read as a number has such parts
(`mem_numeral_iff`), and it is read with them, but for the exponent: its digits count only until
they have come to `exponentLimit`, so that an exponent of `10 * exponentLimit` or more is read as a
smaller one (`ofExponentDigits_cases`).

That makes a difference only if about as many other digits stand against the exponent.  A text of at
most `lengthInReach` characters is read as the number nearest to the value it writes, and so is any
text whose exponent is read in full (`Parts.Spell.readNearest`).
-/
import LineScript.Proofs.Numerals
import LineScript.Proofs.Rounding
import Mathlib.Data.List.Induction

namespace LineScript

namespace Decimal

open RegularExpression

/-! ### The parts of a number -/

/-- The second text is the first one behind an optional sign, which is a minus or not. -/
inductive Signed : Bool → Text → Text → Prop
  | unsigned (t : Text) : Signed false t t
  | plus (t : Text) : Signed false t ('+' :: t)
  | minus (t : Text) : Signed true t ('-' :: t)

/-- The text is missing, or a mark with an optional sign and digits that spell the exponent. -/
inductive ExponentPart : Int → Text → Prop
  | missing : ExponentPart 0 []
  | marked {mark : Char} {negative : Bool} {ds t : Text} : mark ∈ ['e', 'E'] → ds ≠ [] →
      (∀ d ∈ ds, d ∈ digits) → Signed negative ds t →
      ExponentPart (if negative then -(ofDigits ds : Int) else ofDigits ds) (mark :: t)

/-- The parts of a number as it is written. -/
structure Parts where
  /-- A minus sign stands in front. -/
  negative : Bool
  /-- The digits before the point. -/
  whole : Text
  /-- The digits behind the point. -/
  fraction : Text
  /-- The exponent. -/
  exponent : Int

namespace Parts

/-- The text is made up of the parts: an optional sign, digits with an optional point among them,
and an optional exponent. -/
def Spell (p : Parts) (s : Text) : Prop :=
  ∃ t e, Cut t p.whole p.fraction ∧ ¬(p.whole = [] ∧ p.fraction = []) ∧
    ExponentPart p.exponent e ∧ Signed p.negative (t ++ e) s

/-- The number with these parts, all digits of the exponent counted. -/
def numeral (p : Parts) : Numeral :=
  ⟨p.negative, ofDigits (p.whole ++ p.fraction), p.exponent - p.fraction.length⟩

end Parts

/-- The exact value of a decimal number. -/
def Numeral.value (n : Numeral) : ℚ :=
  (if n.negative then -1 else 1) * n.coefficient * 10 ^ n.exponent

/-- The exact value that is written. -/
def Parts.value (p : Parts) : ℚ := p.numeral.value

/-! ### Texts that match have parts -/

lemma mem_sign_mul_iff {P : RegularExpression Char} {s : Text} :
    s ∈ (sign * P).matches' ↔ ∃ negative, ∃ t ∈ P.matches', Signed negative t s := by
  rw [sign, mem_optional_oneOf_mul]
  constructor
  · rintro (h | ⟨c, hc, t, ht, rfl⟩)
    · exact ⟨false, s, h, .unsigned s⟩
    · rcases List.mem_pair.mp hc with rfl | rfl
      · exact ⟨false, t, ht, .plus t⟩
      · exact ⟨true, t, ht, .minus t⟩
  · rintro ⟨negative, t, ht, hs⟩
    cases hs with
    | unsigned => exact .inl ht
    | plus => exact .inr ⟨'+', by decide, t, ht, rfl⟩
    | minus => exact .inr ⟨'-', by decide, t, ht, rfl⟩

lemma mem_exponent_iff {e : Text} :
    e ∈ (optional exponent).matches' ↔ ∃ x, ExponentPart x e := by
  rw [mem_optional, exponent, mem_oneOf_mul]
  constructor
  · rintro (rfl | ⟨mark, hmark, t, ht, rfl⟩)
    · exact ⟨0, .missing⟩
    · obtain ⟨negative, ds, hds, hsigned⟩ := mem_sign_mul_iff.mp ht
      obtain ⟨hne, hdigits⟩ := mem_oneOrMore_oneOf.mp hds
      exact ⟨_, .marked hmark hne hdigits hsigned⟩
  · rintro ⟨x, hx⟩
    cases hx with
    | missing => exact .inl rfl
    | @marked mark negative ds t hmark hne hdigits hsigned =>
      have hds := mem_oneOrMore_oneOf.mpr ⟨hne, hdigits⟩
      exact .inr ⟨mark, hmark, t, mem_sign_mul_iff.mpr ⟨negative, ds, hds, hsigned⟩, rfl⟩

/-- A text matches if and only if it is made up of parts. -/
theorem mem_numeral_iff {s : Text} : s ∈ numeral.matches' ↔ ∃ p : Parts, p.Spell s := by
  rw [numeral, mem_sign_mul_iff]
  constructor
  · rintro ⟨negative, u, ⟨t, ht, e, he, rfl⟩, hsigned⟩
    obtain ⟨whole, fraction, hcut, hne⟩ := exists_cut_of_mem ht
    obtain ⟨x, hx⟩ := mem_exponent_iff.mp he
    exact ⟨⟨negative, whole, fraction, x⟩, t, e, hcut, hne, hx, hsigned⟩
  · rintro ⟨p, t, e, hcut, hne, hx, hsigned⟩
    exact ⟨p.negative, t ++ e, ⟨t, hcut.mem_coefficient hne, e, mem_exponent_iff.mpr ⟨_, hx⟩, rfl⟩,
      hsigned⟩

/-! ### Reading the parts -/

lemma forall_mem_digits {ds : Text} (h : ds.all Char.isDigit = true) : ∀ c ∈ ds, c ∈ digits :=
  fun c hc => mem_digits_iff.mpr (List.all_eq_true.mp h c hc)

lemma mem_digits_of_mem_replicate {k : Nat} {c : Char} (h : c ∈ List.replicate k '0') :
    c ∈ digits := by
  rw [List.eq_of_mem_replicate h]
  decide

lemma mem_digits_of_mem_toDigits {c : Nat} {d : Char} (h : d ∈ Nat.toDigits 10 c) : d ∈ digits :=
  mem_digits_iff.mpr (Nat.isDigit_of_mem_toDigits (by norm_num) (by norm_num) h)

lemma Signed.takeSign_eq {negative : Bool} {t s : Text} (h : Signed negative t s)
    (ht : ∀ c ∈ signs, ∀ u, t ≠ c :: u) : takeSign s = (negative, t) := by
  cases h with
  | unsigned =>
    unfold takeSign
    split
    · exact absurd rfl (ht '+' (by decide) _)
    · exact absurd rfl (ht '-' (by decide) _)
    · rfl
  | plus => rfl
  | minus => rfl

lemma Signed.length_le {negative : Bool} {t s : Text} (h : Signed negative t s) :
    t.length ≤ s.length := by
  cases h <;> simp

lemma ofDigits_append_singleton (ds : Text) (d : Char) :
    ofDigits (ds ++ [d]) = 10 * ofDigits ds + digitValue d := by
  rw [ofDigits_eq, ofDigits_eq, List.foldl_append]
  rfl

lemma ofDigits_append (ds es : Text) :
    ofDigits (ds ++ es) = ofDigits ds * 10 ^ es.length + ofDigits es := by
  induction es using List.reverseRecOn with
  | nil => simp [ofDigits_eq]
  | append_singleton es e ih =>
    rw [← List.append_assoc, ofDigits_append_singleton, ih, ofDigits_append_singleton,
      List.length_append, List.length_singleton, pow_succ]
    ring

lemma ofDigits_replicate_zero (k : Nat) : ofDigits (List.replicate k '0') = 0 := by
  induction k with
  | zero => rw [List.replicate_zero, ofDigits_eq, List.foldl_nil]
  | succ k ih => rw [List.replicate_succ', ofDigits_append_singleton, ih]; rfl

lemma ofDigits_append_zeros (ds : Text) (k : Nat) :
    ofDigits (ds ++ List.replicate k '0') = ofDigits ds * 10 ^ k := by
  rw [ofDigits_append, ofDigits_replicate_zero, List.length_replicate, Nat.add_zero]

lemma ofDigits_toDigits (c : Nat) : ofDigits (Nat.toDigits 10 c) = c := by
  rw [ofDigits_eq]
  exact Nat.ofDigitChars_ten_toDigits

lemma ofExponentDigits_append_singleton (ds : Text) (d : Char) :
    ofExponentDigits (ds ++ [d]) =
      if ofExponentDigits ds < exponentLimit then 10 * ofExponentDigits ds + digitValue d
      else ofExponentDigits ds := by
  rw [ofExponentDigits, List.foldl_append]
  rfl

/-- The digits of an exponent are read in full, or what is read and what they spell are both
large. -/
lemma ofExponentDigits_cases (ds : Text) :
    ofExponentDigits ds = ofDigits ds ∨
      exponentLimit ≤ ofExponentDigits ds ∧ 10 * exponentLimit ≤ ofDigits ds := by
  induction ds using List.reverseRecOn with
  | nil => exact .inl (ofDigits_eq []).symm
  | append_singleton ds d ih =>
    rw [ofExponentDigits_append_singleton, ofDigits_append_singleton]
    split_ifs <;> omega

/-- An exponent is read in full, or what is read and what is written are large with one sign. -/
def ReadAs (x x' : Int) : Prop :=
  x' = x ∨ exponentLimit ≤ x' ∧ 10 * exponentLimit ≤ x ∨
    x' ≤ -exponentLimit ∧ x ≤ -(10 * exponentLimit)

lemma ExponentPart.readExponent?_eq {x : Int} {e : Text} (h : ExponentPart x e) :
    ∃ x', readExponent? e = some x' ∧ ReadAs x x' := by
  cases h with
  | missing => exact ⟨0, rfl, .inl rfl⟩
  | @marked mark negative ds t hmark hne hdigits hsigned =>
    have hsign : takeSign t = (negative, ds) := by
      refine hsigned.takeSign_eq ?_
      rintro c hc u rfl
      have hdigit : c ∈ digits := hdigits c List.mem_cons_self
      exact not_mem_digits_of_mem_signs hc (List.mem_cons_of_mem _ hdigit)
    have hall : ds.all Char.isDigit = true :=
      List.all_eq_true.mpr fun d hd => mem_digits_iff.mp (hdigits d hd)
    have hread : readExponent? (mark :: t) =
        some (if negative then -(ofExponentDigits ds : Int) else ofExponentDigits ds) := by
      rw [readExponent?, if_pos (List.mem_pair.mp hmark), hsign]
      exact if_pos ⟨hne, hall⟩
    refine ⟨_, hread, ?_⟩
    have hcases := ofExponentDigits_cases ds
    cases negative with
    | true =>
      rw [if_pos rfl, if_pos rfl, ReadAs]
      omega
    | false =>
      rw [if_neg Bool.false_ne_true, if_neg Bool.false_ne_true, ReadAs]
      omega

lemma Numeral.read?_eq (s : Text) :
    Numeral.read? s =
      let t := (takeSign s).2
      let whole := (takeDigits t).1
      let fraction := (takeFraction (takeDigits t).2).1
      if whole = [] ∧ fraction = [] then none
      else (readExponent? (takeFraction (takeDigits t).2).2).map fun x =>
        ⟨(takeSign s).1, ofDigits (whole ++ fraction), x - fraction.length⟩ := rfl

/-- A text that is cut into parts is read with them. -/
lemma Numeral.read?_of_parts {negative : Bool} {s t e whole fraction : Text} {x : Int}
    (hcut : Cut t whole fraction) (hne : ¬(whole = [] ∧ fraction = []))
    (he : e ∈ (optional Decimal.exponent).matches') (hx : readExponent? e = some x)
    (hs : Signed negative (t ++ e) s) :
    Numeral.read? s = some ⟨negative, ofDigits (whole ++ fraction), x - fraction.length⟩ := by
  have hsign : takeSign s = (negative, t ++ e) := by
    refine hs.takeSign_eq fun c hc u hu => ?_
    obtain ⟨d, hd, v, rfl⟩ := exists_cons_of_mem_coefficient (hcut.mem_coefficient hne)
    obtain rfl : d = c := (List.cons.inj hu).1
    exact not_mem_digits_of_mem_signs hc hd
  have hrest : ∀ c u, e = c :: u → c ∉ '.' :: digits := by
    rintro c u rfl
    exact head_of_mem_exponent he
  obtain ⟨hwhole, hfraction⟩ := hcut.take_append hrest
  rw [Numeral.read?_eq, hsign]
  dsimp only
  rw [hwhole, hfraction]
  dsimp only
  rw [if_neg hne, hx]
  rfl

namespace Parts

variable {p : Parts} {s : Text}

/-- A text is read with its parts, but for an exponent that is large. -/
lemma Spell.numeral_read? (h : p.Spell s) :
    ∃ x, ReadAs p.exponent x ∧ Numeral.read? s =
      some ⟨p.negative, ofDigits (p.whole ++ p.fraction), x - p.fraction.length⟩ := by
  obtain ⟨t, e, hcut, hne, hexp, hsigned⟩ := h
  obtain ⟨x, hx, hread⟩ := hexp.readExponent?_eq
  exact ⟨x, hread,
    Numeral.read?_of_parts hcut hne (mem_exponent_iff.mpr ⟨_, hexp⟩) hx hsigned⟩

lemma Spell.digits_of_mem (h : p.Spell s) : ∀ c ∈ p.whole ++ p.fraction, c ∈ digits := by
  obtain ⟨t, e, hcut, -⟩ := h
  exact List.forall_mem_append.mpr ⟨hcut.whole_digits, hcut.fraction_digits⟩

lemma Spell.length_le (h : p.Spell s) : p.whole.length + p.fraction.length ≤ s.length := by
  obtain ⟨t, e, hcut, -, -, hsigned⟩ := h
  have ht : p.whole.length + p.fraction.length ≤ t.length := by
    rcases hcut.text_eq with rfl | ⟨hfraction, rfl⟩
    · simp
    · simp [hfraction]
  have hs := hsigned.length_le
  rw [List.length_append] at hs
  omega

end Parts

/-! ### Texts that are read as the nearest number -/

lemma digitValue_le {c : Char} (h : c ∈ digits) : digitValue c ≤ 9 := by
  have hall : digits.all (fun c => digitValue c ≤ 9) = true := by decide
  exact of_decide_eq_true (List.all_eq_true.mp hall c h)

lemma ofDigits_lt {ds : Text} (h : ∀ c ∈ ds, c ∈ digits) : ofDigits ds < 10 ^ ds.length := by
  induction ds using List.reverseRecOn with
  | nil => simp [ofDigits_eq]
  | append_singleton ds d ih =>
    have hds := ih fun c hc => h c (List.mem_append_left _ hc)
    have hd := digitValue_le (h d (by simp))
    rw [ofDigits_append_singleton, List.length_append, List.length_singleton, pow_succ]
    omega

lemma nearest_eq_zero {c : Nat} {e : Int} (h : 2 * inUnits c e < 1) : nearest c e = 0 := by
  refine Nat.eq_zero_of_not_pos fun hpos => ?_
  exact Binary64.not_roundsAbove_of_lt_half h 0 ((lt_nearest_iff c e 0).mp hpos).2

/-- A text of this length is read as the number nearest to what it writes, whatever its exponent. -/
def lengthInReach : Nat := 65000

/-- Few digits do not stand against a large negative exponent. -/
lemma inUnits_sub_lt_half {c w f : Nat} {x : Int} (hx : x ≤ -exponentLimit)
    (hc : c < 10 ^ (w + f)) (hw : w ≤ lengthInReach) : 2 * inUnits c (x - f) < 1 := by
  have hlimit : exponentLimit = 65536 := rfl
  have hreach : lengthInReach = 65000 := rfl
  have hc : (c : ℚ) ≤ 10 ^ ((w + f : Nat) : Int) := by
    rw [zpow_natCast]
    exact_mod_cast hc.le
  calc 2 * inUnits c (x - f) = 2 * (c * 10 ^ (x - f) * unitsPerOne) := rfl
    _ ≤ 2 * (10 ^ ((w + f : Nat) : Int) * 10 ^ (x - f) * 10 ^ (358 : Int)) := by
        have hpos := unitsPerOne_pos
        have hle := unitsPerOne_le
        gcongr
    _ = 2 * 10 ^ (w + x + 358) := by
        rw [← zpow_add₀ (by norm_num), ← zpow_add₀ (by norm_num)]
        congr 2
        omega
    _ ≤ 2 * 10 ^ (-1 : Int) := by
        gcongr
        · norm_num
        · omega
    _ < 1 := by norm_num

/-- Against few digits, an exponent that is not read in full comes to the same. -/
lemma nearest_of_readAs {c w f : Nat} {x x' : Int} (h : ReadAs x x') (hc : c < 10 ^ (w + f))
    (hwf : w + f ≤ lengthInReach) : nearest c (x' - f) = nearest c (x - f) := by
  have hlimit : exponentLimit = 65536 := rfl
  have hreach : lengthInReach = 65000 := rfl
  by_cases hzero : c = 0
  · simp [nearest, hzero]
  have hsmall : ∀ y : Int, y ≤ -exponentLimit → nearest c (y - f) = 0 := fun y hy =>
    nearest_eq_zero (inUnits_sub_lt_half hy hc (by omega))
  rcases h with rfl | ⟨hx', hx⟩ | ⟨hx', hx⟩
  · rfl
  · have hlarge : ∀ y : Int, 400 < y → nearest c y = Binary64.infinity := by
      intro y hy
      simp [nearest, hzero, hy]
    rw [hlarge _ (by omega), hlarge _ (by omega)]
  · rw [hsmall x' hx', hsmall x (by omega)]

/-- The text is short, or its exponent is read in full. -/
def Parts.InReach (p : Parts) (s : Text) : Prop :=
  s.length ≤ lengthInReach ∨ p.exponent.natAbs < 10 * exponentLimit

/-- The text is read as the number nearest to the value of the parts. -/
def Parts.ReadNearest (p : Parts) (s : Text) : Prop :=
  read? s = some p.numeral.toBinary64

/-- A text in reach is read as the number nearest to the value it writes. -/
theorem Parts.Spell.readNearest {p : Parts} {s : Text} (h : p.Spell s) (hreach : p.InReach s) :
    p.ReadNearest s := by
  obtain ⟨x, hx, hread⟩ := h.numeral_read?
  have hnearest : nearest (ofDigits (p.whole ++ p.fraction)) (x - p.fraction.length) =
      nearest (ofDigits (p.whole ++ p.fraction)) (p.exponent - p.fraction.length) := by
    rcases hreach with hlength | hexp
    · have hlt := ofDigits_lt h.digits_of_mem
      rw [List.length_append] at hlt
      exact nearest_of_readAs hx hlt (h.length_le.trans hlength)
    · have hfull : x = p.exponent := by
        unfold ReadAs at hx
        omega
      rw [hfull]
  rw [Parts.ReadNearest, read?, hread]
  simp only [Option.map_some, Numeral.toBinary64, Parts.numeral, hnearest]

/-! ### Values and their order -/

lemma Numeral.value_mul_unitsPerOne (n : Numeral) :
    n.value * unitsPerOne =
      (if n.negative then -1 else 1) * inUnits n.coefficient n.exponent := by
  rw [Numeral.value, inUnits]
  ring

lemma inUnits_nonneg (c : Nat) (e : Int) : 0 ≤ inUnits c e := by
  have hpos := unitsPerOne_pos
  unfold inUnits
  positivity

/-- The number nearest to a larger value is not smaller. -/
theorem Numeral.rank_le_rank {m n : Numeral} (h : m.value ≤ n.value) :
    m.toBinary64.rank ≤ n.toBinary64.rank := by
  have hscaled := mul_le_mul_of_nonneg_right h unitsPerOne_pos.le
  rw [m.value_mul_unitsPerOne, n.value_mul_unitsPerOne] at hscaled
  have hm := inUnits_nonneg m.coefficient m.exponent
  have hn := inUnits_nonneg n.coefficient n.exponent
  have hzero : ∀ c e, inUnits c e ≤ 0 → nearest c e = 0 := fun c e hle =>
    nearest_eq_zero (by linarith)
  obtain ⟨sm, cm, em⟩ := m
  obtain ⟨sn, cn, en⟩ := n
  simp only [Binary64.rank, Numeral.toBinary64] at hscaled hm hn ⊢
  cases sm with
  | false =>
    cases sn with
    | false =>
      have hle : nearest cm em ≤ nearest cn en := nearest_le_nearest (by simpa using hscaled)
      simpa using hle
    | true =>
      -- both values are zero
      simp only [Bool.false_eq_true, if_false, if_true] at hscaled ⊢
      rw [hzero cm em (by linarith), hzero cn en (by linarith)]
      simp
  | true =>
    cases sn with
    | false =>
      simp only [Bool.false_eq_true, if_false, if_true]
      omega
    | true =>
      have hle : nearest cn en ≤ nearest cm em := by
        refine nearest_le_nearest ?_
        simp only [if_true] at hscaled
        linarith
      simp only [if_true]
      omega

end Decimal
end LineScript
