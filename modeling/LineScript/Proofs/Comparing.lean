/-
# The comparisons

No text is read as a datum that is not a number, so that any two of the texts that the comparisons
take can be compared, by their places in the order of numbers.  Hence the five comparisons are those
of one total preorder, and this preorder agrees with that of the values written: rounding keeps the
order.  `comparisons_order_numbers` puts this together.

That texts are read as the numbers nearest to what they write is what the last part rests on.  It is
known of all texts in reach (`Parts.Spell.readNearest`).  Out of reach are texts with tens of
thousands of digits against an exponent of which not all digits count; `long_text_out_of_order`
shows that some of them are read as other numbers.
-/
import LineScript.Proofs.WrittenValue

namespace LineScript

namespace Comparison

/-- On numbers, each comparison compares places in the order. -/
lemma apply_eq {x y : Binary64} (hx : x.isNaN = false) (hy : y.isNaN = false) (op : Comparison) :
    op.apply x y =
      match op with
      | .lt => decide (x.rank < y.rank)
      | .gt => decide (y.rank < x.rank)
      | .le => decide (x.rank ≤ y.rank)
      | .ge => decide (y.rank ≤ x.rank)
      | .eq => decide (x.rank = y.rank) := by
  cases op <;> simp [apply, Binary64.lt, Binary64.le, Binary64.eq, Binary64.comparable, hx, hy]

end Comparison

section Dispatch

variable (files : Files) (depth : Nat) {w : World}

/-- A comparison gives the truth value of what it says about the numbers read. -/
lemma outcome_comparison {op : Comparison} {a b : Text} {x y : Binary64}
    (h : w.scope.resolve op.name = .primitive (.builtin (.comparison op)))
    (ha : Decimal.read? a = some x) (hb : Decimal.read? b = some y) :
    (dispatch files depth op.name [a, b] w).outcome = .ok (truth (op.apply x y)) :=
  outcome_of_withNumbers files depth h (fun _ _ => rfl) ha hb

lemma exists_read_of_mem {a : Text} (h : a ∈ Decimal.numeral.matches') :
    ∃ x, Decimal.read? a = some x ∧ x.isNaN = false := by
  obtain ⟨x, hx⟩ := Option.isSome_iff_exists.mp ((Decimal.isSome_read?_iff a).mpr h)
  exact ⟨x, hx, Decimal.isNaN_of_read? hx⟩

lemma ok_truth_eq_one {b : Bool} : (.ok (truth b) : Outcome Text) = .ok ['1'] ↔ b = true := by
  cases b <;> simp [truth]

lemma ok_truth_eq_zero {b : Bool} : (.ok (truth b) : Outcome Text) = .ok ['0'] ↔ b = false := by
  cases b <;> simp [truth]

/-- Where the comparisons have their meanings, each of them gives `1` or `0` on two texts that are
numbers, and exactly one of `<`, `==` and `>` gives `1`.  The others say what these say: `<=` is the
contrary of `>`, `>=` that of `<`, `==` is `<=` both ways, and `<` is `>` the other way round.  The
relation `<=` is transitive.  Where texts are read as the nearest numbers, it holds if the value
that the first text writes is at most that of the second one; and a text is read so if it is short
or has an exponent that is read in full. -/
theorem comparisons_order_numbers
    (h : ∀ op : Comparison, w.scope.resolve op.name = .primitive (.builtin (.comparison op))) :
    let answer := fun (op : Comparison) (a b : Text) =>
      (dispatch files depth op.name [a, b] w).outcome
    let yes : Outcome Text := .ok ['1']
    let no : Outcome Text := .ok ['0']
    ∀ a ∈ Decimal.numeral.matches', ∀ b ∈ Decimal.numeral.matches', ∀ c ∈ Decimal.numeral.matches',
      (answer .lt a b = yes ∧ answer .eq a b = no ∧ answer .gt a b = no ∨
        answer .lt a b = no ∧ answer .eq a b = yes ∧ answer .gt a b = no ∨
        answer .lt a b = no ∧ answer .eq a b = no ∧ answer .gt a b = yes) ∧
      (∀ op, answer op a b = yes ∨ answer op a b = no) ∧
      (answer .le a b = yes ↔ answer .gt a b = no) ∧
      (answer .ge a b = yes ↔ answer .lt a b = no) ∧
      (answer .eq a b = yes ↔ answer .le a b = yes ∧ answer .le b a = yes) ∧
      answer .lt a b = answer .gt b a ∧
      (answer .le a b = yes → answer .le b c = yes → answer .le a c = yes) ∧
      (∃ p : Decimal.Parts, p.Spell a) ∧
      ∀ p q : Decimal.Parts, p.Spell a → q.Spell b →
        (p.InReach a → p.ReadNearest a) ∧
        (p.ReadNearest a → q.ReadNearest b → p.value ≤ q.value → answer .le a b = yes) := by
  intro answer yes no a ha b hb c hc
  obtain ⟨x, hx, hxn⟩ := exists_read_of_mem ha
  obtain ⟨y, hy, hyn⟩ := exists_read_of_mem hb
  obtain ⟨z, hz, hzn⟩ := exists_read_of_mem hc
  have hab : ∀ op, answer op a b = .ok (truth (op.apply x y)) := fun op =>
    outcome_comparison files depth (h op) hx hy
  have hba : ∀ op, answer op b a = .ok (truth (op.apply y x)) := fun op =>
    outcome_comparison files depth (h op) hy hx
  have hbc : ∀ op, answer op b c = .ok (truth (op.apply y z)) := fun op =>
    outcome_comparison files depth (h op) hy hz
  have hac : ∀ op, answer op a c = .ok (truth (op.apply x z)) := fun op =>
    outcome_comparison files depth (h op) hx hz
  simp only [hab, hba, hbc, hac, yes, no, ok_truth_eq_one, ok_truth_eq_zero,
    Comparison.apply_eq hxn hyn, Comparison.apply_eq hyn hxn, Comparison.apply_eq hyn hzn,
    Comparison.apply_eq hxn hzn, decide_eq_true_eq, decide_eq_false_iff_not]
  refine ⟨by omega, ?_, by omega, by omega, by omega, trivial, by omega,
    Decimal.mem_numeral_iff.mp ha, ?_⟩
  · intro op
    cases op <;> simp only [decide_eq_true_eq, decide_eq_false_iff_not] <;> omega
  · intro p q hp _
    refine ⟨hp.readNearest, fun hpr hqr hvalue => ?_⟩
    obtain rfl := Option.some.inj (hpr.symm.trans hx)
    obtain rfl := Option.some.inj (hqr.symm.trans hy)
    exact Decimal.Numeral.rank_le_rank hvalue

end Dispatch

/-- A text that stands for minus infinity, and one that stands for zero. -/
theorem overflow_before_underflow :
    let files : Files := fun _ => .error .notFound
    let w : World := ⟨.initial none, {}⟩
    let answer := fun (op : Comparison) (a b : Text) =>
      (dispatch files 0 op.name [a, b] w).outcome
    let a := "-1e400".toList
    let b := "1e-400".toList
    let p : Decimal.Parts := ⟨true, ['1'], [], 400⟩
    let q : Decimal.Parts := ⟨false, ['1'], [], -400⟩
    (∀ op : Comparison, w.scope.resolve op.name = .primitive (.builtin (.comparison op))) ∧
      p.Spell a ∧ q.Spell b ∧ p.value ≤ q.value ∧
      answer .le a b = .ok ['1'] ∧ answer .gt a b = .ok ['0'] ∧
      answer .lt a b = answer .gt b a := by
  intro files w answer a b p q
  have hop : ∀ op : Comparison,
      w.scope.resolve op.name = .primitive (.builtin (.comparison op)) := by
    intro op
    cases op <;> rfl
  have hdigits : Decimal.ofDigits "400".toList = 400 := by decide +kernel
  have hcut : Decimal.Cut ['1'] ['1'] [] := ⟨Decimal.forall_mem_digits rfl, nofun, .inr ⟨rfl, rfl⟩⟩
  have hp : p.Spell a := by
    refine ⟨['1'], "e400".toList, hcut, by decide, ?_, .minus _⟩
    have he := @Decimal.ExponentPart.marked 'e' false "400".toList _ (by decide) (by decide)
      (Decimal.forall_mem_digits rfl) (.unsigned _)
    rw [hdigits] at he
    exact he
  have hq : q.Spell b := by
    refine ⟨['1'], "e-400".toList, hcut, by decide, ?_, .unsigned _⟩
    have he := @Decimal.ExponentPart.marked 'e' true "400".toList _ (by decide) (by decide)
      (Decimal.forall_mem_digits rfl) (.minus _)
    rw [hdigits] at he
    exact he
  have hvalue : p.value ≤ q.value := by
    have hp : p.value ≤ 0 := by
      simp [Decimal.Parts.value, Decimal.Numeral.value, Decimal.Parts.numeral, p]
    have hq : 0 ≤ q.value := by
      simp [Decimal.Parts.value, Decimal.Numeral.value, Decimal.Parts.numeral, q]
    exact hp.trans hq
  have ha : a ∈ Decimal.numeral.matches' := Decimal.mem_numeral_iff.mpr ⟨p, hp⟩
  have hb : b ∈ Decimal.numeral.matches' := Decimal.mem_numeral_iff.mpr ⟨q, hq⟩
  obtain ⟨-, -, hle, -, -, hlt, -, -, horder⟩ :=
    comparisons_order_numbers files 0 hop a ha b hb a ha
  have hyes := (horder p q hp hq).2 (hp.readNearest (.inl (by decide)))
    (hq.readNearest (.inl (by decide))) hvalue
  exact ⟨hop, hp, hq, hvalue, hyes, hle.mp hyes, hlt⟩

/-! ### Texts beyond reach -/

namespace Decimal

/-- A one with zeros behind it. -/
def oneWithZeros (k : Nat) : Text := '1' :: List.replicate k '0'

lemma ofDigits_oneWithZeros (k : Nat) : ofDigits (oneWithZeros k) = 10 ^ k := by
  have hone : ofDigits ['1'] = 1 := by decide +kernel
  rw [oneWithZeros, ← List.singleton_append, ofDigits_append_zeros, hone, Nat.one_mul]

lemma cut_oneWithZeros (k : Nat) : Cut (oneWithZeros k) (oneWithZeros k) [] := by
  refine ⟨?_, nofun, .inr ⟨rfl, rfl⟩⟩
  exact List.forall_mem_cons.mpr ⟨by decide, fun _ => mem_digits_of_mem_replicate⟩

/-- The exponent of minus ten times `k`. -/
def tenfoldExponent (k : Nat) : Text := 'e' :: '-' :: (Nat.toDigits 10 k ++ ['0'])

lemma exponentPart_tenfoldExponent (k : Nat) :
    ExponentPart (-(10 * k : Nat)) (tenfoldExponent k) := by
  have hdigits : ∀ d ∈ Nat.toDigits 10 k ++ ['0'], d ∈ digits :=
    List.forall_mem_append.mpr ⟨fun _ => mem_digits_of_mem_toDigits, forall_mem_digits rfl⟩
  have hvalue : ofDigits (Nat.toDigits 10 k ++ ['0']) = 10 * k := by
    rw [ofDigits_append_singleton, ofDigits_toDigits]
    rfl
  have hpart := @ExponentPart.marked 'e' true (Nat.toDigits 10 k ++ ['0']) _ (by decide) (by simp)
    hdigits (.minus _)
  rw [hvalue] at hpart
  exact hpart

/-- Once the limit has been reached the last digit does not count. -/
lemma readExponent?_tenfoldExponent {k : Nat} (hlow : exponentLimit ≤ k)
    (hhigh : k < 10 * exponentLimit) : readExponent? (tenfoldExponent k) = some (-(k : Int)) := by
  have hdigits : ofExponentDigits (Nat.toDigits 10 k) = k := by
    have hcases := ofExponentDigits_cases (Nat.toDigits 10 k)
    rw [ofDigits_toDigits] at hcases
    omega
  have hall : (Nat.toDigits 10 k ++ ['0']).all Char.isDigit = true := by
    rw [List.all_append, List.all_eq_true.mpr fun d hd => mem_digits_iff.mp
      (mem_digits_of_mem_toDigits hd)]
    rfl
  have hlast : ofExponentDigits (Nat.toDigits 10 k ++ ['0']) = k := by
    rw [ofExponentDigits_append_singleton, hdigits, if_neg (Nat.not_lt.mpr hlow)]
  rw [tenfoldExponent, readExponent?, if_pos (.inl rfl)]
  simp only [takeSign, hall, hlast]
  simp

/-- The exponent that is read is the contrary of the zeros and cancels them. -/
lemma read?_oneWithZeros {k : Nat} (hlow : exponentLimit ≤ k) (hhigh : k < 10 * exponentLimit) :
    read? (oneWithZeros k ++ tenfoldExponent k) = some (Numeral.toBinary64 ⟨false, 1, 0⟩) := by
  have hread := Numeral.read?_of_parts (cut_oneWithZeros k)
    (fun hnil => List.cons_ne_nil _ _ hnil.1)
    (mem_exponent_iff.mpr ⟨_, exponentPart_tenfoldExponent k⟩)
    (readExponent?_tenfoldExponent hlow hhigh) (.unsigned _)
  have hunits : inUnits (10 ^ k) (-k - (([] : Text).length : Int)) = inUnits 1 0 := by
    simp [inUnits]
  rw [read?, hread, List.append_nil, ofDigits_oneWithZeros]
  simp only [Option.map_some, Numeral.toBinary64, nearest_congr hunits]

lemma value_oneWithZeros (k : Nat) (x : Int) :
    (Parts.mk false (oneWithZeros k) [] x).value = 10 ^ (k + x) := by
  have hvalue : (Parts.mk false (oneWithZeros k) [] x).value =
      1 * ((10 ^ k : Nat) : ℚ) * 10 ^ (x - (([] : Text).length : Int)) := by
    rw [← ofDigits_oneWithZeros k]
    simp [Parts.value, Numeral.value, Parts.numeral]
  rw [hvalue, one_mul, Nat.cast_pow, Nat.cast_ofNat, ← zpow_natCast, ← zpow_add₀ (by norm_num)]
  simp

end Decimal

/-- A one with so many zeros that their number as an exponent has come to the limit, and ten times
this number as the exponent against them: the text writes a value far below one half, and is read as
one, which is not at most one half. -/
theorem long_text_out_of_order (files : Files) (depth : Nat) {w : World}
    (h : w.scope.resolve Comparison.le.name = .primitive (.builtin (.comparison .le))) {k : Nat}
    (hlow : Decimal.exponentLimit ≤ k) (hhigh : k < 10 * Decimal.exponentLimit) :
    let a := Decimal.oneWithZeros k ++ Decimal.tenfoldExponent k
    let p : Decimal.Parts := ⟨false, Decimal.oneWithZeros k, [], -(10 * k : Nat)⟩
    p.Spell a ∧ p.value < 1 / 2 ∧
      Decimal.read? a = some (Decimal.Numeral.toBinary64 ⟨false, 1, 0⟩) ∧
      (dispatch files depth Comparison.le.name [a, ".5".toList] w).outcome = .ok ['0'] := by
  intro a p
  have hp : p.Spell a := ⟨_, _, Decimal.cut_oneWithZeros k, fun hnil => List.cons_ne_nil _ _ hnil.1,
    Decimal.exponentPart_tenfoldExponent k, .unsigned _⟩
  have hk : 65536 ≤ k := hlow
  have hvalue : p.value < 1 / 2 := by
    calc p.value = 10 ^ (k + (-(10 * k : Nat) : Int)) := Decimal.value_oneWithZeros _ _
      _ ≤ 10 ^ (-1 : Int) := zpow_le_zpow_right₀ (by norm_num) (by omega)
      _ < 1 / 2 := by norm_num
  have ha := Decimal.read?_oneWithZeros hlow hhigh
  have hb : Decimal.read? ".5".toList = some (Decimal.Numeral.toBinary64 ⟨false, 5, -1⟩) := by
    decide +kernel
  refine ⟨hp, hvalue, ha, ?_⟩
  rw [outcome_comparison files depth h ha hb]
  decide +kernel

end LineScript
