/-
# Written numbers read back

A finite number is written without an exponent, and it is read back as itself, its sign included; no
text with fewer significant digits is read as the same number.  So the texts of finite numbers tell
them apart.  What is not finite is written as a text that is not read as a number, so that the value
of an arithmetic operator can be an operand of the next one if and only if it is finite.
`written_numbers_read_back` puts this together.
-/
import LineScript.Proofs.ShortestDigits
import LineScript.Proofs.SignificantDigits

namespace LineScript

namespace Decimal

open Binary64 (infinity)

/-! ### Positional texts -/

/-- The text is cut into digits that write `c · 10 ^ e`, and only as many of them are significant as
`c` has. -/
structure Written (c : Nat) (e : Int) (t whole fraction : Text) : Prop where
  cut : Cut t whole fraction
  whole_ne_nil : whole ≠ []
  inUnits_eq : inUnits (ofDigits (whole ++ fraction)) (-fraction.length) = inUnits c e
  significant_le : ∀ s, c < 10 ^ s → significant (whole ++ fraction) ≤ s

lemma significant_toDigits_le {c s : Nat} (h : c < 10 ^ s) : significant (Nat.toDigits 10 c) ≤ s :=
  significant_le_of_lt (fun _ => mem_digits_of_mem_toDigits) (by rwa [ofDigits_toDigits])

lemma written_toDigits_append_zeros (c k : Nat) :
    Written c k (Nat.toDigits 10 c ++ List.replicate k '0')
      (Nat.toDigits 10 c ++ List.replicate k '0') [] where
  cut := by
    refine ⟨?_, nofun, .inr ⟨rfl, rfl⟩⟩
    exact List.forall_mem_append.mpr
      ⟨fun _ => mem_digits_of_mem_toDigits, fun _ => mem_digits_of_mem_replicate⟩
  whole_ne_nil := fun h => Nat.toDigits_ne_nil (List.append_eq_nil_iff.mp h).1
  inUnits_eq := by
    rw [List.append_nil, ofDigits_append_zeros, ofDigits_toDigits, inUnits_mul_pow]
    simp
  significant_le := by
    intro s hs
    rw [List.append_nil, significant_append_zeros]
    exact significant_toDigits_le hs

/-- Digits behind zeros, with a point so far from the end. -/
lemma written_point {c zeros places : Nat} {whole fraction : Text}
    (h : whole ++ fraction = List.replicate zeros '0' ++ Nat.toDigits 10 c) (hw : whole ≠ [])
    (hf : fraction.length = places) :
    Written c (-places) (whole ++ '.' :: fraction) whole fraction := by
  have hdigits : ∀ d ∈ whole ++ fraction, d ∈ digits := by
    rw [h]
    exact List.forall_mem_append.mpr
      ⟨fun _ => mem_digits_of_mem_replicate, fun _ => mem_digits_of_mem_toDigits⟩
  have hvalue : ofDigits (whole ++ fraction) = c := by
    rw [h, ofDigits_replicate_append, ofDigits_toDigits]
  obtain ⟨hwhole, hfraction⟩ := List.forall_mem_append.mp hdigits
  refine ⟨⟨hwhole, hfraction, .inl rfl⟩, hw, by rw [hvalue, hf], fun s hs => ?_⟩
  exact significant_le_of_lt hdigits (by rwa [hvalue])

/-- A coefficient with an exponent is written with its value. -/
lemma exists_written (c : Nat) (e : Int) :
    ∃ whole fraction, Written c e (positional c e) whole fraction := by
  match e with
  | .ofNat k => exact ⟨_, _, written_toDigits_append_zeros c k⟩
  | .negSucc k =>
    rw [positional]
    generalize hpadded :
      List.replicate (k + 1 + 1 - (Nat.toDigits 10 c).length) '0' ++ Nat.toDigits 10 c = padded
    -- the zeros leave a digit in front of the point
    have hlen : k + 1 < padded.length := by
      rw [← hpadded, List.length_append, List.length_replicate]
      omega
    have happend : padded.take (padded.length - (k + 1)) ++ padded.drop (padded.length - (k + 1)) =
        List.replicate (k + 1 + 1 - (Nat.toDigits 10 c).length) '0' ++ Nat.toDigits 10 c := by
      rw [List.take_append_drop, hpadded]
    refine ⟨_, _, written_point happend ?_ (?_ : _ = k + 1)⟩
    · intro hnil
      have := congrArg List.length hnil
      rw [List.length_take, List.length_nil] at this
      omega
    · rw [List.length_drop]
      omega

/-! ### Texts of numbers -/

/-- The text is cut into digits that are rounded to the magnitude, and no decimal with fewer digits
than are significant here is. -/
structure ShortestText (n : Nat) (t whole fraction : Text) : Prop where
  cut : Cut t whole fraction
  whole_ne_nil : whole ≠ []
  nearest_eq : nearest (ofDigits (whole ++ fraction)) (-fraction.length) = n
  significant_le : n ≠ 0 → ∀ m x s, nearest m x = n → m < 10 ^ s →
    significant (whole ++ fraction) ≤ s

lemma writeMagnitude_eq {n : Nat} (hzero : n ≠ 0) (hinf : n ≠ infinity) :
    writeMagnitude n = positional (shortest n).1 (shortest n).2 := by
  unfold writeMagnitude
  split_ifs with h
  · exact absurd h hzero
  · cases shortest n
    rfl

lemma exists_shortestText {n : Nat} (h : n < infinity) :
    ∃ whole fraction, ShortestText n (writeMagnitude n) whole fraction := by
  by_cases hzero : n = 0
  · rw [writeMagnitude, if_pos hzero]
    have hcut : Cut ['0'] ['0'] [] := ⟨forall_mem_digits rfl, nofun, .inr ⟨rfl, rfl⟩⟩
    refine ⟨['0'], [], hcut, List.cons_ne_nil _ _, ?_, fun hn => absurd hzero hn⟩
    rw [hzero]
    decide +kernel
  · rw [writeMagnitude_eq hzero h.ne]
    obtain ⟨whole, fraction, hw⟩ := exists_written (shortest n).1 (shortest n).2
    refine ⟨whole, fraction, hw.cut, hw.whole_ne_nil, ?_, fun hn m x s hmx hm => ?_⟩
    · rw [nearest_congr hw.inUnits_eq]
      exact nearest_shortest h.le
    · exact hw.significant_le s (shortest_lt hn hmx hm)

lemma signed_ite (negative : Bool) (t : Text) :
    Signed negative t (if negative then '-' :: t else t) := by
  cases negative with
  | false => exact .unsigned t
  | true => exact .minus t

section Finite

variable {x : Binary64} (h : x.isFinite = true)
include h

lemma signed_write : Signed x.negative (writeMagnitude x.magnitude) (write x) := by
  have hfinite : x.magnitude < infinity := of_decide_eq_true h
  have hnan : ¬x.isNaN = true := fun hn => Nat.lt_asymm hfinite (of_decide_eq_true hn)
  rw [write, if_neg hnan]
  exact signed_ite _ _

/-- The text of a finite number has no exponent. -/
lemma write_mem : write x ∈ (sign * coefficient).matches' := by
  obtain ⟨whole, fraction, htext⟩ := exists_shortestText (of_decide_eq_true h)
  have hmem := htext.cut.mem_coefficient fun hnil => htext.whole_ne_nil hnil.1
  exact mem_sign_mul_iff.mpr ⟨_, _, hmem, signed_write h⟩

/-- A finite number is read back from its text. -/
lemma read?_write : read? (write x) = some x := by
  obtain ⟨whole, fraction, htext⟩ := exists_shortestText (of_decide_eq_true h)
  have hsigned := signed_write h
  rw [← List.append_nil (writeMagnitude _)] at hsigned
  have hread := Numeral.read?_of_parts htext.cut (fun hnil => htext.whole_ne_nil hnil.1)
    (mem_exponent_iff.mpr ⟨0, .missing⟩) rfl hsigned
  have hnearest := htext.nearest_eq
  rw [read?, hread, zero_sub]
  obtain ⟨negative, magnitude, hlt⟩ := x
  simp only [Option.map_some, Numeral.toBinary64, hnearest]

/-- No text with fewer significant digits is read as the same number. -/
lemma significantDigits_write_le (hzero : x.isZero = false) {s : Text} (hs : read? s = some x) :
    significantDigits (write x) ≤ significantDigits s := by
  obtain ⟨whole, fraction, htext⟩ := exists_shortestText (of_decide_eq_true h)
  have hspell : Parts.Spell ⟨x.negative, whole, fraction, 0⟩ (write x) := by
    refine ⟨_, [], htext.cut, fun hnil => htext.whole_ne_nil hnil.1, .missing, ?_⟩
    rw [List.append_nil]
    exact signed_write h
  obtain ⟨p, hp⟩ := mem_numeral_iff.mp ((isSome_read?_iff s).mp (hs ▸ rfl))
  obtain ⟨e, -, hread⟩ := hp.numeral_read?
  obtain ⟨m, k, hdigits, hm⟩ := exists_lt_of_significant hp.digits_of_mem
  have hnearest : nearest m (e - p.fraction.length + k) = x.magnitude := by
    rw [read?, hread, hdigits] at hs
    rw [← Option.some.inj hs, ← nearest_congr (inUnits_mul_pow m k _)]
    rfl
  rw [significantDigits, hspell.coefficientDigits_eq, significantDigits, hp.coefficientDigits_eq]
  exact htext.significant_le (of_decide_eq_false hzero) _ _ _ hnearest hm

end Finite

/-- What is not finite is not read back. -/
lemma read?_write_of_not_finite {x : Binary64} (h : x.isFinite = false) :
    read? (write x) = none := by
  have hle : infinity ≤ x.magnitude := Nat.not_lt.mp (of_decide_eq_false h)
  unfold write
  by_cases hnan : x.isNaN = true
  · rw [if_pos hnan]
    decide +kernel
  · have hinf : x.magnitude = infinity :=
      le_antisymm (Nat.not_lt.mp fun hlt => hnan (decide_eq_true hlt)) hle
    rw [if_neg hnan, hinf]
    cases x.negative <;> decide +kernel

/-- The text of a datum is that of a number if and only if the datum is finite. -/
lemma write_mem_numeral_iff (x : Binary64) : write x ∈ numeral.matches' ↔ x.isFinite = true := by
  rw [← isSome_read?_iff]
  cases h : x.isFinite with
  | true => simp [read?_write h]
  | false => simp [read?_write_of_not_finite h]

end Decimal

/-! ### Values as operands -/

/-- An arithmetic operator gives the text of what it comes to on the numbers read. -/
lemma outcome_arithmetic (files : Files) (depth : Nat) {w : World} {command : Text}
    {op : Arithmetic} {a b : Text} {x y : Binary64}
    (h : w.scope.resolve command = .primitive (.builtin (.arithmetic op)))
    (ha : Decimal.read? a = some x) (hb : Decimal.read? b = some y) :
    (dispatch files depth command [a, b] w).outcome = .ok (Decimal.write (op.apply x y)) :=
  outcome_of_withNumbers files depth h (fun _ _ => rfl) ha hb

/-- Every finite datum is written as a number without an exponent and is read back from it bit for
bit; unless it is zero, no text with fewer significant digits is read as it.  Data that are finite
have different texts if they differ.  What is not finite is written as a text that is not read.
Hence the value of an arithmetic operator on two numbers, which is the text of the number they come
to, is taken by the operators next to another number if and only if that number is finite. -/
theorem written_numbers_read_back :
    (∀ bits : UInt64, (Binary64.ofBits bits).isFinite = true →
      let text := Decimal.write (Binary64.ofBits bits)
      text ∈ (Decimal.sign * Decimal.coefficient).matches' ∧
      text ∈ Decimal.numeral.matches' ∧
      (Decimal.read? text).map Binary64.toBits = some bits ∧
      ((Binary64.ofBits bits).isZero = false →
        ∀ s, (Decimal.read? s).map Binary64.toBits = some bits →
          Decimal.significantDigits text ≤ Decimal.significantDigits s)) ∧
    (∀ bits bits' : UInt64, (Binary64.ofBits bits).isFinite = true →
      (Binary64.ofBits bits').isFinite = true → bits ≠ bits' →
      Decimal.write (Binary64.ofBits bits) ≠ Decimal.write (Binary64.ofBits bits')) ∧
    (∀ bits : UInt64, (Binary64.ofBits bits).isFinite = false →
      Decimal.read? (Decimal.write (Binary64.ofBits bits)) = none) ∧
    ∀ (files : Files) (depth : Nat) (w : World) (command : Text) (op : Arithmetic),
      w.scope.resolve command = .primitive (.builtin (.arithmetic op)) →
      ∀ a b x y, Decimal.read? a = some x → Decimal.read? b = some y →
        let result := Decimal.write (op.apply x y)
        (dispatch files depth command [a, b] w).outcome = .ok result ∧
        ∀ (w : World) (command : Text) (b : Builtin), b.IsOperator →
          w.scope.resolve command = .primitive (.builtin b) →
          ∀ c ∈ Decimal.numeral.matches', ∀ args ∈ [[result, c], [c, result]],
            (∃ value, (dispatch files depth command args w).outcome = .ok value) ↔
              (op.apply x y).isFinite = true := by
  have hread : ∀ bits : UInt64, (Binary64.ofBits bits).isFinite = true →
      (Decimal.read? (Decimal.write (Binary64.ofBits bits))).map Binary64.toBits = some bits := by
    intro bits h
    rw [Decimal.read?_write h, Option.map_some, Binary64.toBits_ofBits]
  refine ⟨fun bits h => ⟨Decimal.write_mem h, ?_, hread bits h, ?_⟩, ?_, ?_, ?_⟩
  · exact (Decimal.write_mem_numeral_iff _).mpr h
  · intro hzero s hs
    obtain ⟨x, hx, rfl⟩ := Option.map_eq_some_iff.mp hs
    rw [Binary64.ofBits_toBits] at h hzero ⊢
    exact Decimal.significantDigits_write_le h hzero hx
  · intro bits bits' h h' hne htext
    have hread' := hread bits' h'
    rw [← htext, hread bits h] at hread'
    exact hne (Option.some.inj hread')
  · exact fun bits h => Decimal.read?_write_of_not_finite h
  · intro files depth w command op hcommand a b x y ha hb result
    refine ⟨outcome_arithmetic files depth hcommand ha hb, ?_⟩
    intro w command b hb hcommand c hc args hargs
    have hlen : args.length = 2 := by
      rcases List.mem_pair.mp hargs with rfl | rfl <;> rfl
    have hall : (∀ arg ∈ args, arg ∈ Decimal.numeral.matches') ↔
        result ∈ Decimal.numeral.matches' := by
      rcases List.mem_pair.mp hargs with rfl | rfl <;> simp [hc]
    rw [exists_value_iff hb files depth hcommand, hall, and_iff_right hlen]
    exact Decimal.write_mem_numeral_iff (op.apply x y)

/-- One tenth, which is also read from more digits; a negative zero; and a product that is too
large, which is no operand of a sum. -/
theorem tenth_and_overflow_written :
    let files : Files := fun _ => .error .notFound
    let w : World := ⟨.initial none, {}⟩
    let tenth : UInt64 := 0x3fb999999999999a
    let zero : UInt64 := 0x8000000000000000
    let s := "1000000000000000055e-19".toList
    let outcome := fun (op : Arithmetic) args => (dispatch files 0 op.name args w).outcome
    Decimal.write (Binary64.ofBits tenth) = "0.1".toList ∧
      Decimal.significantDigits "0.1".toList ≤ Decimal.significantDigits s ∧
      Decimal.write (Binary64.ofBits zero) = "-0".toList ∧
      (Decimal.read? "-0".toList).map Binary64.toBits = some zero ∧
      outcome .mul ["1e308".toList, "10".toList] = .ok "inf".toList ∧
      ¬∃ value, outcome .add ["inf".toList, "1".toList] = .ok value := by
  intro files w tenth zero s outcome
  have htenth : Decimal.write (Binary64.ofBits tenth) = "0.1".toList := by decide +kernel
  have hzero : Decimal.write (Binary64.ofBits zero) = "-0".toList := by decide +kernel
  obtain ⟨hfinite, -, -, hresult⟩ := written_numbers_read_back
  obtain ⟨-, -, -, hshort⟩ := hfinite tenth (by decide)
  obtain ⟨-, -, hread, -⟩ := hfinite zero (by decide)
  obtain ⟨hmul, hadd⟩ := hresult files 0 w Arithmetic.mul.name .mul rfl "1e308".toList "10".toList
    ⟨false, 0x7fe1ccf385ebc8a0, by decide⟩ ⟨false, 0x4024000000000000, by decide⟩
    (by decide +kernel) (by decide +kernel)
  have hinf : Decimal.write (Arithmetic.mul.apply ⟨false, 0x7fe1ccf385ebc8a0, by decide⟩
      ⟨false, 0x4024000000000000, by decide⟩) = "inf".toList := by decide +kernel
  rw [hinf] at hmul hadd
  rw [htenth] at hshort
  rw [hzero] at hread
  have hrefused := hadd w Arithmetic.add.name (.arithmetic .add) (.arithmetic .add) rfl "1".toList
    (by decide +kernel) ["inf".toList, "1".toList] (by decide)
  exact ⟨htenth, hshort (by decide) s (by decide +kernel), hzero, hread, hmul,
    fun hvalue => absurd (hrefused.mp hvalue) (by decide +kernel)⟩

end LineScript
