/-
# Decoding keeps the characters of scripts in place

All characters that mean something to the reader of scripts have codes below 80 (hexadecimal), and
so have the bytes that spell them.  Bytes that spell no character may stand between them: a lead
byte announces bytes that belong to it, and what it announces need not come.  Here it is shown that
this does no harm.

* Decoding starts anew at every byte that continues no sequence, whatever stands before it.
* The characters below 80 in a decoded text are the bytes below 80 of the input, in their order.  A
  byte below 80 is never taken for a part of a sequence (`following_eq_nil`), and a sequence with
  any other lead gives a character that is not below 80 (`le_toNat_spell`).
-/
import LineScript.Proofs.WellFormed

namespace LineScript
namespace Utf8

/-- The characters with codes below 80. -/
def asciiChars (t : Text) : Text :=
  t.filter (·.toNat < 0x80)

/-- The bytes below 80. -/
def asciiBytes (bs : List UInt8) : List UInt8 :=
  bs.filter (·.toNat < 0x80)

section Lead

variable {lead : UInt8}

/-- A byte below 80 has no bytes that belong to it. -/
lemma following_eq_nil (h : lead.toNat < 0x80) (bs : List UInt8) : following lead bs = [] := by
  have hlen : 1 = sequenceLength lead := (sequenceLength_eq_iff lead).1.mpr (by omega)
  rw [following, ← hlen]
  rfl

/-- A byte below 80 spells the character with its code. -/
lemma toNat_spell (h : lead.toNat < 0x80) : (spell lead []).toNat = lead.toNat := by
  have hlen : 1 = sequenceLength lead := (sequenceLength_eq_iff lead).1.mpr (by omega)
  have hvalid : lead.toNat.isValidChar := .inl (by omega)
  obtain ⟨c, hc⟩ := exists_scalar_iff.mpr ⟨Nat.zero_le lead.toNat, hvalid⟩
  have hspell : spell lead [] = c := by
    rw [spell, List.length_nil, Nat.zero_add, if_pos hlen, assemble, hc]
    rfl
  rw [hspell]
  exact (toNat_of_scalar hc).1

/-- A complete sequence of several bytes spells no character below 80. -/
lemma le_toNat_assemble {lead b : UInt8} {bs : List UInt8} {c : Char}
    (h : assemble (lead :: b :: bs) = some c) : 0x80 ≤ c.toNat := by
  have hleast : ∀ {least code : Nat}, 0x80 ≤ least → scalar least code = some c →
      0x80 ≤ c.toNat := by
    intro least code hle hscalar
    obtain ⟨hcode, hcode', -⟩ := toNat_of_scalar hscalar
    show 0x80 ≤ c.val.toNat
    omega
  rcases bs with _ | ⟨b₂, _ | ⟨b₃, _ | ⟨b₄, more⟩⟩⟩
  · exact hleast (by omega) h
  · exact hleast (by omega) h
  · exact hleast (by omega) h
  · exact nomatch h

/-- A lead that is not below 80 gives a character that is not below 80, whatever follows. -/
lemma le_toNat_spell (h : 0x80 ≤ lead.toNat) (bs : List UInt8) : 0x80 ≤ (spell lead bs).toNat := by
  have hreplacement : 0x80 ≤ replacement.toNat := by decide
  unfold spell
  split
  · rename_i hlen
    cases bs with
    | nil =>
      have hlead := (sequenceLength_eq_iff lead).1.mp hlen
      omega
    | cons b bs =>
      cases hc : assemble (lead :: b :: bs) with
      | none => exact hreplacement
      | some c => exact le_toNat_assemble hc
  · exact hreplacement

end Lead

/-- The bytes that belong to a lead are not below 80. -/
lemma asciiBytes_following (lead : UInt8) (bs : List UInt8) :
    asciiBytes (following lead bs) = [] := by
  refine List.filter_eq_nil_iff.mpr fun b hb => ?_
  have hcont := (isContinuation_iff b).mp (List.mem_takeWhile_imp hb)
  simp only [decide_eq_true_eq]
  omega

/-- The characters below 80 are spelled by the bytes below 80, in their order. -/
theorem asciiChars_decode (bs : List UInt8) :
    (asciiChars (decode bs)).map Char.toNat = (asciiBytes bs).map UInt8.toNat := by
  fun_induction decode bs with
  | case1 => rfl
  | case2 lead bs ih =>
    -- of the bytes behind the lead, those that belong to it are not below 80
    have hrest : asciiBytes (bs.drop (following lead bs).length) = asciiBytes bs := by
      conv_rhs => rw [← following_append_drop lead bs]
      rw [asciiBytes, asciiBytes, List.filter_append]
      exact (congrArg (· ++ _) (asciiBytes_following lead bs)).symm
    rw [hrest] at ih
    by_cases hlead : lead.toNat < 0x80
    · have hfollowing := following_eq_nil hlead bs
      have hspell := toNat_spell hlead
      rw [hfollowing] at ih ⊢
      simp only [asciiChars, asciiBytes] at ih ⊢
      rw [List.filter_cons_of_pos (by simpa [hspell] using hlead),
        List.filter_cons_of_pos (by simpa using hlead), List.map_cons, List.map_cons, hspell, ih]
    · have hspell := le_toNat_spell (Nat.le_of_not_lt hlead) (following lead bs)
      simp only [asciiChars, asciiBytes] at ih ⊢
      rw [List.filter_cons_of_neg (by simpa using hspell),
        List.filter_cons_of_neg (by simpa using hlead), ih]

end Utf8

/-- Decoding starts anew at a byte that continues no sequence: where the bytes of a stream are those
of two others, one behind the other, and the second one does not begin with a continuation byte,
the characters are those of the first and then those of the second, whatever sequence the first may
break off.  And in every stream the characters below 80 are the bytes below 80 in their order: none
is lost in an ill-formed sequence, and none is made up. -/
theorem decoding_starts_anew :
    (∀ s₁ s₂ s : ByteStream, s.bytes = s₁.bytes ++ s₂.bytes →
      (∀ b ∈ s₂.bytes.head?, Utf8.isContinuation b = false) →
      s.decodeAll.text = s₁.decodeAll.text ++ s₂.decodeAll.text) ∧
    ∀ s : ByteStream,
      (Utf8.asciiChars s.decodeAll.text).map Char.toNat =
        (Utf8.asciiBytes s.bytes).map UInt8.toNat := by
  refine ⟨fun s₁ s₂ s hbytes hhead => ?_, fun s => ?_⟩
  · rw [s.decodeAll_eq.1, s₁.decodeAll_eq.1, s₂.decodeAll_eq.1, hbytes,
      Utf8.decode_append (.inr hhead)]
  · rw [s.decodeAll_eq.1, Utf8.asciiChars_decode]

/-- A stream that breaks off a sequence of four bytes behind the third, in front of one that begins
with a newline and has a lead without its continuation in front of a bracket.  Together they come in
other fills. -/
theorem broken_sequences_between_lines :
    let s₁ : ByteStream := ⟨[.bytes [0x61, 0xf0, 0x9f], .bytes [0x92]], none⟩
    let s₂ : ByteStream := ⟨[.bytes [0x0a, 0xe2, 0x5d, 0xff]], none⟩
    let s : ByteStream :=
      ⟨[.bytes [0x61, 0xf0], .interrupted, .bytes [0x9f, 0x92, 0x0a, 0xe2, 0x5d, 0xff]], none⟩
    s.bytes = s₁.bytes ++ s₂.bytes ∧ (∀ b ∈ s₂.bytes.head?, Utf8.isContinuation b = false) ∧
      s₁.decodeAll.text = ['a', Utf8.replacement] ∧
      s.decodeAll.text =
        ['a', Utf8.replacement, '\n', Utf8.replacement, ']', Utf8.replacement] ∧
      (Utf8.asciiChars s.decodeAll.text).map Char.toNat = [0x61, 0x0a, 0x5d] := by
  intro s₁ s₂ s
  obtain ⟨happend, hascii⟩ := decoding_starts_anew
  have hbytes : s.bytes = s₁.bytes ++ s₂.bytes := by decide +kernel
  have hhead : ∀ b ∈ s₂.bytes.head?, Utf8.isContinuation b = false := by decide +kernel
  have htext₁ : s₁.decodeAll.text = ['a', Utf8.replacement] := by decide +kernel
  have htext₂ : s₂.decodeAll.text = ['\n', Utf8.replacement, ']', Utf8.replacement] := by
    decide +kernel
  refine ⟨hbytes, hhead, htext₁, ?_, ?_⟩
  · rw [happend s₁ s₂ s hbytes hhead, htext₁, htext₂]
    rfl
  · rw [hascii s]
    decide +kernel

end LineScript
