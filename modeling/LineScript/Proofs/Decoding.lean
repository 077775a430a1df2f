/-
# The characters of a byte stream

Two facts about decoding.  A text is what the bytes that spell it are decoded to (`decode_encode`).
And the characters of a stream are those of the bytes it shows before it first fails, however these
are cut into fills and however often an attempt is interrupted (`decodeAll_eq`).
-/
import Mathlib.Data.List.TakeWhile
import Mathlib.Tactic.Common
import LineScript.ByteStream

namespace LineScript
namespace Utf8

/-! ### The bytes of a text -/

/-- A complete sequence is taken off as a whole. -/
lemma decode_sequence {lead : UInt8} {tail : List UInt8} (rest : List UInt8)
    (hlen : tail.length + 1 = sequenceLength lead) (hcont : ∀ b ∈ tail, isContinuation b = true) :
    decode (lead :: tail ++ rest) =
      (assemble (lead :: tail)).getD replacement :: decode rest := by
  have hfollowing : following lead (tail ++ rest) = tail := by
    rw [following, ← hlen, Nat.add_sub_cancel, List.take_left]
    exact List.takeWhile_eq_self_iff.mpr hcont
  rw [List.cons_append, decode, hfollowing, List.drop_left, spell, if_pos hlen]

section Bytes

variable {n : Nat} (h : n < 256)
include h

lemma toNat_ofNat : (UInt8.ofNat n).toNat = n :=
  UInt8.toNat_ofNat_of_lt' h

lemma sequenceLength_ofNat :
    sequenceLength (UInt8.ofNat n) =
      if n ≤ 0x7f then 1
      else if 0xc2 ≤ n ∧ n ≤ 0xdf then 2
      else if 0xe0 ≤ n ∧ n ≤ 0xef then 3
      else if 0xf0 ≤ n ∧ n ≤ 0xf4 then 4
      else 0 := by
  simp only [sequenceLength, UInt8.le_iff_toNat_le, toNat_ofNat h]
  rfl

end Bytes

lemma isContinuation_ofNat (n : Nat) : isContinuation (UInt8.ofNat (n % 64 + 128)) = true := by
  have h := toNat_ofNat (show n % 64 + 128 < 256 by omega)
  simp only [isContinuation, Bool.and_eq_true, decide_eq_true_eq, UInt8.le_iff_toNat_le, h]
  constructor
  · show 128 ≤ n % 64 + 128
    omega
  · show n % 64 + 128 ≤ 191
    omega

lemma scalar_toNat {c : Char} {least : Nat} (h : least ≤ c.toNat) :
    scalar least c.toNat = some c := by
  rw [scalar, if_pos ⟨h, c.valid⟩, Char.ofNat_toNat]

/-- The bytes of a character are a complete sequence that spells it. -/
lemma utf8EncodeChar_eq (c : Char) :
    ∃ lead tail, String.utf8EncodeChar c = lead :: tail ∧
      tail.length + 1 = sequenceLength lead ∧ (∀ b ∈ tail, isContinuation b = true) ∧
      assemble (lead :: tail) = some c := by
  have hmax : c.toNat < 0x110000 := by
    rcases c.valid with h | h
    · show c.val.toNat < _
      omega
    · exact h.2
  obtain ⟨n, hn⟩ : ∃ n, c.toNat = n := ⟨_, rfl⟩
  rw [hn] at hmax
  have hval : c.val.toNat = n := hn
  -- one case for each length of a sequence; the code is put together again from its digits
  unfold String.utf8EncodeChar
  simp only [hval]
  split
  · rename_i h
    refine ⟨_, _, rfl, ?_, by simp, ?_⟩
    · rw [sequenceLength_ofNat (by omega), if_pos h]
      rfl
    · rw [assemble, toNat_ofNat (by omega), ← hn]
      exact scalar_toNat (Nat.zero_le _)
  split
  · rename_i h h'
    refine ⟨_, _, rfl, ?_, ?_, ?_⟩
    · rw [sequenceLength_ofNat (by omega), if_neg (by omega), if_pos (by omega)]
      rfl
    · simp only [List.forall_mem_cons, isContinuation_ofNat, true_and]
      exact List.forall_mem_nil _
    · rw [assemble, toNat_ofNat (by omega), toNat_ofNat (by omega)]
      have hcode : (n / 64 % 32 + 192) % 32 * 64 + (n % 64 + 128) % 64 = c.toNat := by omega
      rw [hcode]
      exact scalar_toNat (by omega)
  split
  · rename_i h h' h''
    refine ⟨_, _, rfl, ?_, ?_, ?_⟩
    · rw [sequenceLength_ofNat (by omega), if_neg (by omega), if_neg (by omega),
        if_pos (by omega)]
      rfl
    · simp only [List.forall_mem_cons, isContinuation_ofNat, true_and]
      exact List.forall_mem_nil _
    · rw [assemble, toNat_ofNat (by omega), toNat_ofNat (by omega), toNat_ofNat (by omega)]
      have hcode : (n / 4096 % 16 + 224) % 16 * 4096 + (n / 64 % 64 + 128) % 64 * 64
          + (n % 64 + 128) % 64 = c.toNat := by omega
      rw [hcode]
      exact scalar_toNat (by omega)
  · rename_i h h' h''
    refine ⟨_, _, rfl, ?_, ?_, ?_⟩
    · rw [sequenceLength_ofNat (by omega), if_neg (by omega), if_neg (by omega),
        if_neg (by omega), if_pos (by omega)]
      rfl
    · simp only [List.forall_mem_cons, isContinuation_ofNat, true_and]
      exact List.forall_mem_nil _
    · rw [assemble, toNat_ofNat (by omega), toNat_ofNat (by omega), toNat_ofNat (by omega),
        toNat_ofNat (by omega)]
      have hcode : (n / 262144 % 8 + 240) % 8 * 262144 + (n / 4096 % 64 + 128) % 64 * 4096
          + (n / 64 % 64 + 128) % 64 * 64 + (n % 64 + 128) % 64 = c.toNat := by omega
      rw [hcode]
      exact scalar_toNat (by omega)

/-- Decoding gives back the text that the bytes spell. -/
theorem decode_encode (t : Text) : decode (encode t) = t := by
  induction t with
  | nil => rw [encode_nil, decode_nil]
  | cons c t ih =>
    obtain ⟨lead, tail, hbytes, hlen, hcont, hc⟩ := utf8EncodeChar_eq c
    have hcons : encode (c :: t) = lead :: tail ++ encode t := by
      rw [← hbytes]
      rfl
    rw [hcons, decode_sequence _ hlen hcont, hc, ih]
    rfl

end Utf8

/-! ### The bytes of a stream -/

namespace Fill

/-- The bytes that are shown before an attempt first fails. -/
def before : List Fill → List UInt8
  | [] => []
  | bytes shown :: fills => shown ++ before fills
  | interrupted :: fills => before fills
  | failure _ :: _ => []

/-- Why the first attempt that fails does so. -/
def failure? : List Fill → Option Text
  | [] => none
  | bytes _ :: fills => failure? fills
  | interrupted :: fills => failure? fills
  | failure reason :: _ => some reason

end Fill

namespace ByteStream

/-- The bytes that the stream gives before it fails. -/
def bytes (s : ByteStream) : List UInt8 :=
  match s.fault with
  | some _ => []
  | none => Fill.before s.fills

/-- Why the stream has failed or will fail. -/
def failure? (s : ByteStream) : Option Text :=
  match s.fault with
  | some reason => some reason
  | none => Fill.failure? s.fills

/-- The stream `t` is what is to come from `s` once some bytes have been taken. -/
structure Took (s : ByteStream) (taken : List UInt8) (t : ByteStream) : Prop where
  bytes_eq : s.bytes = taken ++ t.bytes
  failure_eq : t.failure? = s.failure?

lemma Took.trans {s t u : ByteStream} {xs ys : List UInt8} (h : Took s xs t) (h' : Took t ys u) :
    Took s (xs ++ ys) u := by
  constructor
  · rw [h.bytes_eq, h'.bytes_eq, List.append_assoc]
  · rw [h'.failure_eq, h.failure_eq]

lemma bytes_of_fault {s : ByteStream} {reason : Text} (h : s.fault = some reason) :
    s.bytes = [] := by
  rw [bytes, h]

lemma failure_of_fault {s : ByteStream} {reason : Text} (h : s.fault = some reason) :
    s.failure? = some reason := by
  rw [failure?, h]

/-- The byte that is taken is the next one, if that is wanted.  A failure has been met where no
byte is left. -/
lemma pullFrom_spec (wanted : UInt8 → Bool) (fills : List Fill) :
    (pullFrom wanted fills).1 = (Fill.before fills).head?.filter wanted ∧
      Took ⟨fills, none⟩ (pullFrom wanted fills).1.toList (pullFrom wanted fills).2 ∧
      (Fill.before fills = [] → (pullFrom wanted fills).2.fault = Fill.failure? fills) := by
  fun_induction pullFrom wanted fills with
  | case1 => exact ⟨rfl, ⟨rfl, rfl⟩, fun _ => rfl⟩
  | case2 fills ih =>
    obtain ⟨hb, htook, hfault⟩ := ih
    exact ⟨hb, ⟨htook.bytes_eq, htook.failure_eq⟩, hfault⟩
  | case3 b bs fills h =>
    refine ⟨?_, ⟨rfl, rfl⟩, fun hnil => ?_⟩
    · rw [Fill.before, List.cons_append, List.head?_cons, Option.filter_some, if_pos h]
    · exact absurd hnil (List.cons_ne_nil _ _)
  | case4 b bs fills h =>
    refine ⟨?_, ⟨rfl, rfl⟩, fun hnil => ?_⟩
    · rw [Fill.before, List.cons_append, List.head?_cons, Option.filter_some, if_neg h]
    · exact absurd hnil (List.cons_ne_nil _ _)
  | case5 fills ih =>
    obtain ⟨hb, htook, hfault⟩ := ih
    exact ⟨hb, ⟨htook.bytes_eq, htook.failure_eq⟩, hfault⟩
  | case6 reason fills => exact ⟨rfl, ⟨rfl, rfl⟩, fun _ => rfl⟩

lemma pull_spec (wanted : UInt8 → Bool) (s : ByteStream) :
    (s.pull wanted).1 = s.bytes.head?.filter wanted ∧
      Took s (s.pull wanted).1.toList (s.pull wanted).2 ∧
      (s.bytes = [] → (s.pull wanted).2.fault = s.failure?) := by
  obtain ⟨fills, fault⟩ := s
  cases fault with
  | none => exact pullFrom_spec wanted fills
  | some reason => exact ⟨rfl, ⟨rfl, rfl⟩, fun _ => rfl⟩

/-- The continuation bytes that are taken. -/
lemma pullContinuation_spec (n : Nat) (s : ByteStream) :
    (s.pullContinuation n).1 = (s.bytes.take n).takeWhile Utf8.isContinuation ∧
      Took s (s.pullContinuation n).1 (s.pullContinuation n).2 := by
  fun_induction pullContinuation n s with
  | case1 s => exact ⟨rfl, ⟨rfl, rfl⟩⟩
  | case2 n s t hp =>
    obtain ⟨hb, htook, -⟩ := pull_spec Utf8.isContinuation s
    rw [hp] at hb htook
    refine ⟨?_, htook⟩
    cases hbytes : s.bytes with
    | nil => rfl
    | cons b bs =>
      rw [hbytes, List.head?_cons, Option.filter_some] at hb
      have hno : ¬Utf8.isContinuation b = true := by
        intro hyes
        rw [if_pos hyes] at hb
        simp at hb
      rw [List.take_succ_cons, List.takeWhile_cons_of_neg hno]
  | case3 n s b t hp bs u hc ih =>
    obtain ⟨hb, htook, -⟩ := pull_spec Utf8.isContinuation s
    rw [hp] at hb htook
    rw [hc] at ih
    obtain ⟨hbs, htook'⟩ := ih
    refine ⟨?_, htook.trans htook'⟩
    have hyes : Utf8.isContinuation b = true := (Option.filter_eq_some_iff.mp hb.symm).2
    rw [htook.bytes_eq, Option.toList_some, List.singleton_append, List.take_succ_cons,
      List.takeWhile_cons_of_pos hyes, ← hbs]

/-- The next character is that of the sequence in front. -/
lemma next_of_cons {s : ByteStream} {lead : UInt8} {bs : List UInt8} (h : s.bytes = lead :: bs) :
    s.next.1 = some (Utf8.spell lead (Utf8.following lead bs)) ∧
      s.next.2.bytes = bs.drop (Utf8.following lead bs).length ∧
      s.next.2.failure? = s.failure? := by
  obtain ⟨hb, htook, -⟩ := pull_spec (fun _ => true) s
  unfold next
  rcases hp : s.pull (fun _ => true) with ⟨o, t⟩
  rw [hp, h] at hb
  obtain rfl : o = some lead := hb
  rw [hp] at htook
  obtain rfl : bs = t.bytes := (List.cons.inj (h.symm.trans htook.bytes_eq)).2
  obtain ⟨hbs, htook'⟩ := pullContinuation_spec (Utf8.sequenceLength lead - 1) t
  have hfollowing : (pullContinuation (Utf8.sequenceLength lead - 1) t).1
      = Utf8.following lead t.bytes := hbs
  refine ⟨?_, ?_, ?_⟩
  · rw [← hfollowing]
  · rw [← hfollowing, htook'.bytes_eq, List.drop_left]
  · exact htook'.failure_eq.trans htook.failure_eq

/-- Where no byte is left there is no character, and the failure is met if there is one. -/
lemma next_of_nil {s : ByteStream} (h : s.bytes = []) :
    s.next.1 = none ∧ s.next.2.fault = s.failure? := by
  obtain ⟨hb, -, hfault⟩ := pull_spec (fun _ => true) s
  unfold next
  rcases hp : s.pull (fun _ => true) with ⟨o, t⟩
  rw [hp, h] at hb
  rw [hp] at hfault
  obtain rfl : o = none := hb
  exact ⟨rfl, hfault h⟩

lemma cons_of_next {s t : ByteStream} {c : Char} (h : s.next = (some c, t)) :
    ∃ lead bs, s.bytes = lead :: bs := by
  cases hbytes : s.bytes with
  | nil =>
    obtain ⟨hnone, -⟩ := next_of_nil hbytes
    rw [h] at hnone
    exact nomatch hnone
  | cons lead bs => exact ⟨lead, bs, rfl⟩

/-- The characters of a stream are those of its bytes, however they come. -/
theorem decodeAll_eq (s : ByteStream) :
    s.decodeAll.text = Utf8.decode s.bytes ∧ s.decodeAll.fault.map (·.reason) = s.failure? := by
  fun_induction decodeAll s with
  | case1 s t h =>
    cases hbytes : s.bytes with
    | nil =>
      obtain ⟨-, hfault⟩ := next_of_nil hbytes
      rw [h] at hfault
      rw [Utf8.decode_nil, ← hfault, Option.map_map]
      exact ⟨rfl, congrFun Option.map_id _⟩
    | cons lead bs =>
      obtain ⟨hc, -⟩ := next_of_cons hbytes
      rw [h] at hc
      exact nomatch hc
  | case2 s c t h reason hf =>
    -- the failure is met inside the last character, so that no byte is left behind it
    obtain ⟨lead, bs, hbytes⟩ := cons_of_next h
    obtain ⟨hc, hrest, hfail⟩ := next_of_cons hbytes
    rw [h] at hc hrest hfail
    rw [hbytes, Utf8.decode, ← hrest, bytes_of_fault hf, Utf8.decode_nil, ← hfail,
      failure_of_fault hf]
    obtain rfl := Option.some.inj hc
    exact ⟨rfl, rfl⟩
  | case3 s c t h hf this d ih =>
    obtain ⟨lead, bs, hbytes⟩ := cons_of_next h
    obtain ⟨hc, hrest, hfail⟩ := next_of_cons hbytes
    rw [h] at hc hrest hfail
    obtain ⟨htext, hreason⟩ := ih
    obtain rfl := Option.some.inj hc
    rw [hbytes, Utf8.decode, ← hrest, ← hfail, ← htext, ← hreason]
    exact ⟨rfl, rfl⟩

end ByteStream
end LineScript
