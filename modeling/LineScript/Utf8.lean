/-
# UTF-8 on lists of bytes

A lead byte announces how many bytes its sequence has.  The bytes that follow belong to it as
long as they are continuation bytes and the announced number is not reached; whatever else
comes next starts a new character.  A sequence that is cut short, and a complete one that spells
no character (an overlong form, a surrogate, a value above `10FFFF`), give one replacement
character; so does a byte that cannot lead a sequence.

That is how scripts are read, by `decode`.  Bytes that are only shown are decoded by `display`,
which gives one replacement character for each longest piece that could still have become a
character: there a second byte with which no character of the given lead goes on belongs to the
next piece.  On the bytes of a text the two agree.
-/

import LineScript.Token

namespace LineScript
namespace Utf8

/-- Stands for bytes that spell no character. -/
def replacement : Char := '\uFFFD'

/-- The number of bytes of the sequence that a byte leads; zero if it can lead none. -/
def sequenceLength (lead : UInt8) : Nat :=
  if lead ≤ 0x7f then 1
  else if 0xc2 ≤ lead ∧ lead ≤ 0xdf then 2
  else if 0xe0 ≤ lead ∧ lead ≤ 0xef then 3
  else if 0xf0 ≤ lead ∧ lead ≤ 0xf4 then 4
  else 0

/-- The bytes that may follow the lead of a sequence. -/
def isContinuation (b : UInt8) : Bool :=
  0x80 ≤ b && b ≤ 0xbf

/-- The character with the given code, provided that there is one and that it is not below
`least`, the first code that needs a sequence of this length. -/
def scalar (least code : Nat) : Option Char :=
  if least ≤ code ∧ code.isValidChar then some (Char.ofNat code) else none

/-- The character that a complete sequence spells, if any. -/
def assemble : List UInt8 → Option Char
  | [a] => scalar 0 a.toNat
  | [a, b] => scalar 0x80 (a.toNat % 32 * 64 + b.toNat % 64)
  | [a, b, c] => scalar 0x800 (a.toNat % 16 * 4096 + b.toNat % 64 * 64 + c.toNat % 64)
  | [a, b, c, d] =>
    scalar 0x10000
      (a.toNat % 8 * 262144 + b.toNat % 64 * 4096 + c.toNat % 64 * 64 + d.toNat % 64)
  | _ => none

/-- The character for a lead byte and the continuation bytes found after it. -/
def spell (lead : UInt8) (following : List UInt8) : Char :=
  if following.length + 1 = sequenceLength lead then
    (assemble (lead :: following)).getD replacement
  else replacement

/-- The continuation bytes at the front of `bs` that belong to the sequence led by `lead`. -/
def following (lead : UInt8) (bs : List UInt8) : List UInt8 :=
  (bs.take (sequenceLength lead - 1)).takeWhile isContinuation

/-- The text that a list of bytes spells. -/
def decode : List UInt8 → Text
  | [] => []
  | lead :: bs =>
    spell lead (following lead bs) :: decode (bs.drop (following lead bs).length)
termination_by bs => bs.length
decreasing_by simp only [List.length_drop, List.length_cons]; omega

/-- The bytes that some character has in second place after the given lead. -/
def isSecond (lead b : UInt8) : Bool :=
  isContinuation b &&
    if lead = 0xe0 then 0xa0 ≤ b
    else if lead = 0xed then b ≤ 0x9f
    else if lead = 0xf0 then 0x90 ≤ b
    else if lead = 0xf4 then b ≤ 0x8f
    else true

/-- The bytes at the front of `bs` that, after `lead`, begin a character. -/
def beginning (lead : UInt8) (bs : List UInt8) : List UInt8 :=
  match following lead bs with
  | [] => []
  | b :: more => if isSecond lead b then b :: more else []

/-- The text as which a list of bytes is shown. -/
def display : List UInt8 → Text
  | [] => []
  | lead :: bs =>
    spell lead (beginning lead bs) :: display (bs.drop (beginning lead bs).length)
termination_by bs => bs.length
decreasing_by simp only [List.length_drop, List.length_cons]; omega

/-- The bytes that spell a text. -/
def encode (t : Text) : List UInt8 :=
  t.flatMap String.utf8EncodeChar

@[simp] theorem decode_nil : decode [] = [] := by
  rw [decode]

@[simp] theorem display_nil : display [] = [] := by
  rw [display]

@[simp] theorem encode_nil : encode [] = [] := rfl

@[simp] theorem encode_append (s t : Text) : encode (s ++ t) = encode s ++ encode t := by
  simp [encode]

end Utf8
end LineScript
