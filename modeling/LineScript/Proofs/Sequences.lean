/-
# Where bytes may be cut

The characters of two lists of bytes, one behind the other, are those of the first and then those of
the second (`decode_append`), unless the first list ends in the middle of a sequence and the second
one goes on with it.  `endsCut` tells whether a list of bytes ends in the middle of a sequence; such
a list ends with a replacement character (`getLast?_decode_of_endsCut`).
-/
import LineScript.Proofs.Decoding

namespace LineScript
namespace Utf8

/-- The bytes end in the middle of a sequence: further bytes could belong to it. -/
def endsCut : List UInt8 → Bool
  | [] => false
  | lead :: bs =>
    if bs.drop (following lead bs).length = [] then
      decide ((following lead bs).length + 1 < sequenceLength lead)
    else endsCut (bs.drop (following lead bs).length)
termination_by bs => bs.length
decreasing_by simp only [List.length_drop, List.length_cons]; omega

@[simp] lemma endsCut_nil : endsCut [] = false := by rw [endsCut]

/-- What is taken up to a length and as long as a condition holds depends on what follows only if
all was taken and the length is not reached. -/
lemma takeWhile_take_append {p : UInt8 → Bool} (n : Nat) (bs ys : List UInt8)
    (h : bs.drop ((bs.take n).takeWhile p).length ≠ [] ∨ n ≤ ((bs.take n).takeWhile p).length ∨
      ∀ b ∈ ys.head?, p b = false) :
    ((bs ++ ys).take n).takeWhile p = (bs.take n).takeWhile p := by
  induction bs generalizing n with
  | nil =>
    rcases h with h | h | h
    · exact absurd List.drop_nil h
    · obtain rfl : n = 0 := by simpa using h
      rfl
    · cases n <;> cases ys <;> simp_all
  | cons b bs ih =>
    cases n with
    | zero => rfl
    | succ n =>
      rw [List.cons_append, List.take_succ_cons, List.take_succ_cons]
      by_cases hb : p b = true
      · rw [List.takeWhile_cons_of_pos hb, List.takeWhile_cons_of_pos hb, ih]
        simpa [hb] using h
      · rw [List.takeWhile_cons_of_neg hb, List.takeWhile_cons_of_neg hb]

lemma following_append {lead : UInt8} {bs ys : List UInt8}
    (h : bs.drop (following lead bs).length ≠ [] ∨
      sequenceLength lead ≤ (following lead bs).length + 1 ∨
      ∀ b ∈ ys.head?, isContinuation b = false) :
    following lead (bs ++ ys) = following lead bs := by
  refine takeWhile_take_append _ bs ys (h.imp_right (.imp_left fun hle => ?_))
  exact Nat.sub_le_of_le_add hle

lemma length_following_le (lead : UInt8) (bs : List UInt8) :
    (following lead bs).length ≤ bs.length :=
  ((List.takeWhile_sublist _).trans (List.take_sublist _ _)).length_le

lemma decode_cons (lead : UInt8) (bs : List UInt8) :
    decode (lead :: bs) =
      spell lead (following lead bs) :: decode (bs.drop (following lead bs).length) := by
  rw [decode]

/-- A sequence that is not continued by what follows is decoded alone. -/
lemma decode_cons_append {lead : UInt8} {bs ys : List UInt8}
    (h : bs.drop (following lead bs).length ≠ [] ∨
      sequenceLength lead ≤ (following lead bs).length + 1 ∨
      ∀ b ∈ ys.head?, isContinuation b = false) :
    decode (lead :: bs ++ ys) = spell lead (following lead bs) ::
      decode (bs.drop (following lead bs).length ++ ys) := by
  rw [List.cons_append, decode_cons, following_append h,
    List.drop_append_of_le_length (length_following_le lead bs)]

/-- Bytes are decoded apart from those that follow, unless they end in the middle of a sequence that
is continued by what follows. -/
theorem decode_append {xs ys : List UInt8}
    (h : endsCut xs = false ∨ ∀ b ∈ ys.head?, isContinuation b = false) :
    decode (xs ++ ys) = decode xs ++ decode ys := by
  fun_induction endsCut xs with
  | case1 => rw [decode_nil]; rfl
  | case2 lead bs hrest =>
    have hcut : sequenceLength lead ≤ (following lead bs).length + 1 ∨
        ∀ b ∈ ys.head?, isContinuation b = false :=
      h.imp_left fun hfalse => Nat.le_of_not_lt (of_decide_eq_false hfalse)
    rw [decode_cons_append (.inr hcut), decode_cons, hrest, decode_nil]
    rfl
  | case3 lead bs hrest ih =>
    rw [decode_cons_append (.inl hrest), ih h, decode_cons]
    rfl

/-- Whether bytes end in the middle of a sequence is a matter of the last ones. -/
lemma endsCut_append {xs : List UInt8} (h : endsCut xs = false) (ys : List UInt8) :
    endsCut (xs ++ ys) = endsCut ys := by
  fun_induction endsCut xs with
  | case1 => rfl
  | case2 lead bs hrest =>
    have hle : sequenceLength lead ≤ (following lead bs).length + 1 :=
      Nat.le_of_not_lt (of_decide_eq_false h)
    rw [List.cons_append, endsCut, following_append (.inr (.inl hle)),
      List.drop_append_of_le_length (length_following_le lead bs), hrest, List.nil_append]
    split
    · rename_i hys
      rw [hys, endsCut_nil]
      exact h
    · rfl
  | case3 lead bs hrest ih =>
    rw [List.cons_append, endsCut, following_append (.inl hrest),
      List.drop_append_of_le_length (length_following_le lead bs), if_neg, ih h]
    exact fun hnil => hrest (List.append_eq_nil_iff.mp hnil).1

/-- Bytes that end in the middle of a sequence end with a replacement character. -/
lemma getLast?_decode_of_endsCut {xs : List UInt8} (h : endsCut xs = true) :
    (decode xs).getLast? = some replacement := by
  fun_induction endsCut xs with
  | case1 => exact absurd h Bool.false_ne_true
  | case2 lead bs hrest =>
    have hlt : (following lead bs).length + 1 < sequenceLength lead := of_decide_eq_true h
    rw [decode_cons, hrest, decode_nil, spell, if_neg (Nat.ne_of_lt hlt)]
    rfl
  | case3 lead bs hrest ih =>
    have hlast := ih h
    have hne : decode (bs.drop (following lead bs).length) ≠ [] := by
      intro hnil
      rw [hnil] at hlast
      cases hlast
    rw [decode_cons, List.getLast?_cons_of_ne_nil hne, hlast]

end Utf8
end LineScript
