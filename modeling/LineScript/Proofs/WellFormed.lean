/-
# Well-formed bytes

Which bytes spell a text is said here by a table: each row gives the ranges of the bytes of one kind
of sequence, and bytes are well-formed if they are such sequences one behind the other
(`Utf8.WellFormed`).  The table has no row for overlong forms, for surrogates, for codes above
`10FFFF`, and for continuation bytes that are missing or belong to nothing.

The sequences of the table are the complete sequences that spell a character
(`isSequence_iff_assemble`), and each of them is how that character is encoded
(`utf8EncodeChar_of_assemble`).  So encoding undoes decoding exactly on well-formed bytes, and all
others leave a replacement character behind: `decoding_inverts_encoding`.
-/
import Mathlib.Data.List.Forall2
import LineScript.Proofs.Sequences

namespace LineScript
namespace Utf8

/-- The kinds of sequences, by the least and the greatest value of each byte. -/
def sequenceRows : List (List (UInt8 × UInt8)) :=
  [[(0x00, 0x7f)],
    [(0xc2, 0xdf), (0x80, 0xbf)],
    [(0xe0, 0xe0), (0xa0, 0xbf), (0x80, 0xbf)],
    [(0xe1, 0xec), (0x80, 0xbf), (0x80, 0xbf)],
    [(0xed, 0xed), (0x80, 0x9f), (0x80, 0xbf)],
    [(0xee, 0xef), (0x80, 0xbf), (0x80, 0xbf)],
    [(0xf0, 0xf0), (0x90, 0xbf), (0x80, 0xbf), (0x80, 0xbf)],
    [(0xf1, 0xf3), (0x80, 0xbf), (0x80, 0xbf), (0x80, 0xbf)],
    [(0xf4, 0xf4), (0x80, 0x8f), (0x80, 0xbf), (0x80, 0xbf)]]

/-- The bytes are a sequence of one of the kinds. -/
def IsSequence (bs : List UInt8) : Prop :=
  ∃ row ∈ sequenceRows, List.Forall₂ (fun b range => range.1 ≤ b ∧ b ≤ range.2) bs row

/-- The bytes are sequences one behind the other. -/
inductive WellFormed : List UInt8 → Prop
  | nil : WellFormed []
  | append {bs rest : List UInt8} : IsSequence bs → WellFormed rest → WellFormed (bs ++ rest)

/-! ### The sequences of the table -/

lemma exists_scalar_iff {least code : Nat} :
    (∃ c, scalar least code = some c) ↔ least ≤ code ∧ code.isValidChar := by
  unfold scalar
  split
  · rename_i h
    exact iff_of_true ⟨_, rfl⟩ h
  · rename_i h
    exact iff_of_false (fun ⟨_, hc⟩ => nomatch hc) h

lemma isContinuation_iff (b : UInt8) :
    isContinuation b = true ↔ 0x80 ≤ b.toNat ∧ b.toNat ≤ 0xbf := by
  simp [isContinuation, UInt8.le_iff_toNat_le]

lemma sequenceLength_le (lead : UInt8) : sequenceLength lead ≤ 4 := by
  unfold sequenceLength
  split_ifs <;> omega

/-- Each length of a sequence has its range of leads. -/
lemma sequenceLength_eq_iff (lead : UInt8) :
    (1 = sequenceLength lead ↔ lead.toNat ≤ 0x7f) ∧
      (2 = sequenceLength lead ↔ 0xc2 ≤ lead.toNat ∧ lead.toNat ≤ 0xdf) ∧
      (3 = sequenceLength lead ↔ 0xe0 ≤ lead.toNat ∧ lead.toNat ≤ 0xef) ∧
      (4 = sequenceLength lead ↔ 0xf0 ≤ lead.toNat ∧ lead.toNat ≤ 0xf4) := by
  simp only [sequenceLength, UInt8.le_iff_toNat_le, UInt8.reduceToNat]
  split_ifs <;> simp <;> omega

lemma isSequence_one (a : UInt8) :
    IsSequence [a] ↔ 1 = sequenceLength a ∧ ∃ c, assemble [a] = some c := by
  have hrows : IsSequence [a] ↔ a.toNat ≤ 0x7f := by
    simp [IsSequence, sequenceRows, UInt8.le_iff_toNat_le]
  rw [hrows, (sequenceLength_eq_iff a).1, assemble, exists_scalar_iff, Nat.isValidChar]
  omega

lemma isSequence_two (a b : UInt8) :
    IsSequence [a, b] ↔
      2 = sequenceLength a ∧ isContinuation b = true ∧ ∃ c, assemble [a, b] = some c := by
  have hrows : IsSequence [a, b] ↔
      (0xc2 ≤ a.toNat ∧ a.toNat ≤ 0xdf) ∧ 0x80 ≤ b.toNat ∧ b.toNat ≤ 0xbf := by
    simp [IsSequence, sequenceRows, UInt8.le_iff_toNat_le]
  rw [hrows, (sequenceLength_eq_iff a).2.1, isContinuation_iff, assemble, exists_scalar_iff,
    Nat.isValidChar]
  omega

lemma isSequence_three (a b c : UInt8) :
    IsSequence [a, b, c] ↔
      3 = sequenceLength a ∧ (isContinuation b = true ∧ isContinuation c = true) ∧
        ∃ d, assemble [a, b, c] = some d := by
  have hrows : IsSequence [a, b, c] ↔
      (0xe0 ≤ a.toNat ∧ a.toNat ≤ 0xe0) ∧
          (0xa0 ≤ b.toNat ∧ b.toNat ≤ 0xbf) ∧ 0x80 ≤ c.toNat ∧ c.toNat ≤ 0xbf ∨
        (0xe1 ≤ a.toNat ∧ a.toNat ≤ 0xec) ∧
          (0x80 ≤ b.toNat ∧ b.toNat ≤ 0xbf) ∧ 0x80 ≤ c.toNat ∧ c.toNat ≤ 0xbf ∨
        (0xed ≤ a.toNat ∧ a.toNat ≤ 0xed) ∧
          (0x80 ≤ b.toNat ∧ b.toNat ≤ 0x9f) ∧ 0x80 ≤ c.toNat ∧ c.toNat ≤ 0xbf ∨
        (0xee ≤ a.toNat ∧ a.toNat ≤ 0xef) ∧
          (0x80 ≤ b.toNat ∧ b.toNat ≤ 0xbf) ∧ 0x80 ≤ c.toNat ∧ c.toNat ≤ 0xbf := by
    simp [IsSequence, sequenceRows, UInt8.le_iff_toNat_le]
  rw [hrows, (sequenceLength_eq_iff a).2.2.1, isContinuation_iff, isContinuation_iff, assemble,
    exists_scalar_iff, Nat.isValidChar]
  constructor
  · rintro (h | h | h | h) <;> omega
  · rintro ⟨ha, hbc, hcode⟩
    -- the lead alone tells which row it has to be
    rcases (by omega : a.toNat = 0xe0 ∨ (0xe1 ≤ a.toNat ∧ a.toNat ≤ 0xec) ∨ a.toNat = 0xed ∨
      0xee ≤ a.toNat) with h | h | h | h
    · exact .inl (by omega)
    · exact .inr (.inl ⟨h, hbc⟩)
    · exact .inr (.inr (.inl (by omega)))
    · exact .inr (.inr (.inr ⟨⟨h, ha.2⟩, hbc⟩))

lemma isSequence_four (a b c d : UInt8) :
    IsSequence [a, b, c, d] ↔
      4 = sequenceLength a ∧
        (isContinuation b = true ∧ isContinuation c = true ∧ isContinuation d = true) ∧
        ∃ e, assemble [a, b, c, d] = some e := by
  have hrows : IsSequence [a, b, c, d] ↔
      (0xf0 ≤ a.toNat ∧ a.toNat ≤ 0xf0) ∧ (0x90 ≤ b.toNat ∧ b.toNat ≤ 0xbf) ∧
          (0x80 ≤ c.toNat ∧ c.toNat ≤ 0xbf) ∧ 0x80 ≤ d.toNat ∧ d.toNat ≤ 0xbf ∨
        (0xf1 ≤ a.toNat ∧ a.toNat ≤ 0xf3) ∧ (0x80 ≤ b.toNat ∧ b.toNat ≤ 0xbf) ∧
          (0x80 ≤ c.toNat ∧ c.toNat ≤ 0xbf) ∧ 0x80 ≤ d.toNat ∧ d.toNat ≤ 0xbf ∨
        (0xf4 ≤ a.toNat ∧ a.toNat ≤ 0xf4) ∧ (0x80 ≤ b.toNat ∧ b.toNat ≤ 0x8f) ∧
          (0x80 ≤ c.toNat ∧ c.toNat ≤ 0xbf) ∧ 0x80 ≤ d.toNat ∧ d.toNat ≤ 0xbf := by
    simp [IsSequence, sequenceRows, UInt8.le_iff_toNat_le]
  rw [hrows, (sequenceLength_eq_iff a).2.2.2, isContinuation_iff, isContinuation_iff,
    isContinuation_iff, assemble, exists_scalar_iff, Nat.isValidChar]
  constructor
  · rintro (h | h | h) <;> omega
  · rintro ⟨ha, hbcd, hcode⟩
    rcases (by omega : a.toNat = 0xf0 ∨ (0xf1 ≤ a.toNat ∧ a.toNat ≤ 0xf3) ∨ a.toNat = 0xf4)
      with h | h | h
    · exact .inl (by omega)
    · exact .inr (.inl ⟨h, hbcd⟩)
    · exact .inr (.inr (by omega))

/-- The table holds exactly the complete sequences that spell a character. -/
lemma isSequence_iff_assemble (lead : UInt8) (tail : List UInt8) :
    IsSequence (lead :: tail) ↔
      tail.length + 1 = sequenceLength lead ∧ (∀ b ∈ tail, isContinuation b = true) ∧
        ∃ c, assemble (lead :: tail) = some c := by
  rcases tail with _ | ⟨b, _ | ⟨c, _ | ⟨d, _ | ⟨e, more⟩⟩⟩⟩
  · simpa using isSequence_one lead
  · simpa using isSequence_two lead b
  · simpa using isSequence_three lead b c
  · simpa using isSequence_four lead b c d
  · have hlen := sequenceLength_le lead
    refine iff_of_false (by simp [IsSequence, sequenceRows]) fun h => ?_
    simp only [List.length_cons] at h
    omega

lemma ne_nil_of_isSequence {bs : List UInt8} (h : IsSequence bs) : bs ≠ [] := by
  rintro rfl
  simp [IsSequence, sequenceRows] at h

lemma toNat_of_scalar {least code : Nat} {c : Char} (h : scalar least code = some c) :
    c.val.toNat = code ∧ least ≤ code ∧ code.isValidChar := by
  unfold scalar at h
  split at h
  · rename_i hcode
    obtain rfl := Option.some.inj h
    refine ⟨?_, hcode⟩
    rw [Char.ofNat, dif_pos hcode.2]
    rfl
  · exact nomatch h

/-- A complete sequence that spells a character is how that character is encoded. -/
lemma utf8EncodeChar_of_assemble {lead : UInt8} {tail : List UInt8} {c : Char}
    (hlen : tail.length + 1 = sequenceLength lead) (hcont : ∀ b ∈ tail, isContinuation b = true)
    (h : assemble (lead :: tail) = some c) : String.utf8EncodeChar c = lead :: tail := by
  have hbyte : ∀ {n : Nat} {b : UInt8}, n = b.toNat → UInt8.ofNat n = b := by
    rintro n b rfl
    exact UInt8.ofNat_toNat
  obtain ⟨hone, htwo, hthree, hfour⟩ := sequenceLength_eq_iff lead
  unfold String.utf8EncodeChar
  rcases tail with _ | ⟨b₁, _ | ⟨b₂, _ | ⟨b₃, _ | ⟨b₄, more⟩⟩⟩⟩
  · have hlead := hone.mp hlen
    obtain ⟨hcode, -, -⟩ := toNat_of_scalar h
    simp only [hcode]
    rw [if_pos hlead, hbyte rfl]
  · have hlead := htwo.mp hlen
    have h₁ := (isContinuation_iff b₁).mp (hcont b₁ (by simp))
    obtain ⟨hcode, hleast, -⟩ := toNat_of_scalar h
    simp only [hcode]
    rw [if_neg (by omega), if_pos (by omega), hbyte (b := lead) (by omega),
      hbyte (b := b₁) (by omega)]
  · have hlead := hthree.mp hlen
    have h₁ := (isContinuation_iff b₁).mp (hcont b₁ (by simp))
    have h₂ := (isContinuation_iff b₂).mp (hcont b₂ (by simp))
    obtain ⟨hcode, hleast, -⟩ := toNat_of_scalar h
    simp only [hcode]
    rw [if_neg (by omega), if_neg (by omega), if_pos (by omega), hbyte (b := lead) (by omega),
      hbyte (b := b₁) (by omega), hbyte (b := b₂) (by omega)]
  · have hlead := hfour.mp hlen
    have h₁ := (isContinuation_iff b₁).mp (hcont b₁ (by simp))
    have h₂ := (isContinuation_iff b₂).mp (hcont b₂ (by simp))
    have h₃ := (isContinuation_iff b₃).mp (hcont b₃ (by simp))
    obtain ⟨hcode, hleast, -⟩ := toNat_of_scalar h
    simp only [hcode]
    rw [if_neg (by omega), if_neg (by omega), if_neg (by omega), hbyte (b := lead) (by omega),
      hbyte (b := b₁) (by omega), hbyte (b := b₂) (by omega), hbyte (b := b₃) (by omega)]
  · exact nomatch h

/-! ### Well-formed bytes spell a text -/

lemma isSequence_utf8EncodeChar (c : Char) : IsSequence (String.utf8EncodeChar c) := by
  obtain ⟨lead, tail, hbytes, hlen, hcont, hc⟩ := utf8EncodeChar_eq c
  rw [hbytes, isSequence_iff_assemble]
  exact ⟨hlen, hcont, c, hc⟩

lemma exists_utf8EncodeChar_of_isSequence {bs : List UInt8} (h : IsSequence bs) :
    ∃ c, String.utf8EncodeChar c = bs := by
  obtain ⟨lead, tail, rfl⟩ := List.exists_cons_of_ne_nil (ne_nil_of_isSequence h)
  obtain ⟨hlen, hcont, c, hc⟩ := (isSequence_iff_assemble lead tail).mp h
  exact ⟨c, utf8EncodeChar_of_assemble hlen hcont hc⟩

/-- The well-formed bytes are those that encode a text. -/
theorem wellFormed_iff_exists_encode {bs : List UInt8} : WellFormed bs ↔ ∃ t, encode t = bs := by
  constructor
  · intro h
    induction h with
    | nil => exact ⟨[], rfl⟩
    | append hseq _ ih =>
      obtain ⟨c, rfl⟩ := exists_utf8EncodeChar_of_isSequence hseq
      obtain ⟨t, rfl⟩ := ih
      exact ⟨c :: t, rfl⟩
  · rintro ⟨t, rfl⟩
    induction t with
    | nil => exact .nil
    | cons c t ih => exact .append (isSequence_utf8EncodeChar c) ih

/-! ### All others leave a replacement character -/

lemma following_append_drop (lead : UInt8) (bs : List UInt8) :
    following lead bs ++ bs.drop (following lead bs).length = bs := by
  have hprefix : following lead bs <+: bs :=
    (List.takeWhile_prefix _).trans (List.take_prefix _ _)
  exact List.prefix_iff_eq_append.mp hprefix

/-- A sequence that is not decoded to a replacement character is one of the table. -/
lemma isSequence_of_spell_ne {lead : UInt8} {bs : List UInt8}
    (h : spell lead (following lead bs) ≠ replacement) :
    IsSequence (lead :: following lead bs) := by
  unfold spell at h
  split at h
  · rename_i hlen
    refine (isSequence_iff_assemble _ _).mpr ⟨hlen, fun b hb => ?_, ?_⟩
    · exact List.mem_takeWhile_imp hb
    · cases hc : assemble (lead :: following lead bs) with
      | none =>
        rw [hc] at h
        exact absurd rfl h
      | some c => exact ⟨c, rfl⟩
  · exact absurd rfl h

lemma wellFormed_of_replacement_not_mem {bs : List UInt8} (h : replacement ∉ decode bs) :
    WellFormed bs := by
  fun_induction decode bs with
  | case1 => exact .nil
  | case2 lead bs ih =>
    obtain ⟨hspell, hrest⟩ := not_or.mp fun hor => h (List.mem_cons.mpr hor)
    have hseq := isSequence_of_spell_ne (Ne.symm hspell)
    have hbytes := WellFormed.append hseq (ih hrest)
    rwa [List.cons_append, following_append_drop] at hbytes

end Utf8

/-- A stream whose bytes encode a text, in whatever fills they come, is decoded to that text.
Encoding what a stream is decoded to gives its bytes back exactly if these are well-formed; where
they are not, there is a replacement character in the text. -/
theorem decoding_inverts_encoding (s : ByteStream) :
    (∀ t, s.bytes = Utf8.encode t → s.decodeAll.text = t) ∧
      (Utf8.encode s.decodeAll.text = s.bytes ↔ Utf8.WellFormed s.bytes) ∧
      (¬ Utf8.WellFormed s.bytes → Utf8.replacement ∈ s.decodeAll.text) := by
  rw [s.decodeAll_eq.1]
  refine ⟨fun t ht => ?_, ⟨fun h => ?_, fun h => ?_⟩, fun h => ?_⟩
  · rw [ht, Utf8.decode_encode]
  · exact Utf8.wellFormed_iff_exists_encode.mpr ⟨_, h⟩
  · obtain ⟨t, ht⟩ := Utf8.wellFormed_iff_exists_encode.mp h
    rw [← ht, Utf8.decode_encode]
  · by_contra hmem
    exact h (Utf8.wellFormed_of_replacement_not_mem hmem)

/-- The bytes of a text that holds a replacement character itself, in fills that cut its characters,
and bytes in which an overlong form, a surrogate, a code that is too large, a continuation byte
without a lead and a sequence that is cut short stand between characters. -/
theorem well_and_ill_formed_streams :
    let t := "a✓\uFFFD🦀".toList
    let s : ByteStream := ⟨.interrupted :: Fill.cut 2 (Utf8.encode t), none⟩
    let bad : ByteStream := ⟨[.bytes ([0x61, 0xc0, 0x80, 0xe2, 0x9c, 0x93, 0xed, 0xa0, 0x80, 0x62,
      0xf4, 0x90, 0x80, 0x80, 0x80, 0xe2, 0x9c, 0x0a])], none⟩
    s.bytes = Utf8.encode t ∧ s.decodeAll.text = t ∧ Utf8.WellFormed s.bytes ∧
      ¬ Utf8.WellFormed bad.bytes ∧ Utf8.replacement ∈ bad.decodeAll.text ∧
      Utf8.encode bad.decodeAll.text ≠ bad.bytes := by
  intro t s bad
  have hs : s.bytes = Utf8.encode t := by decide +kernel
  obtain ⟨htext, hiff, -⟩ := decoding_inverts_encoding s
  obtain ⟨-, hiff', hreplaced⟩ := decoding_inverts_encoding bad
  have hne : Utf8.encode bad.decodeAll.text ≠ bad.bytes := by decide +kernel
  have hbad : ¬ Utf8.WellFormed bad.bytes := fun h => hne (hiff'.mpr h)
  refine ⟨hs, htext t hs, hiff.mp ?_, hbad, hreplaced hbad, hne⟩
  rw [htext t hs, hs]

end LineScript
