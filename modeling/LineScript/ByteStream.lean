/-
# Byte streams and their characters

A byte stream is what is still to come from a source that is read in fills: a fill shows some
bytes, is interrupted (and simply tried again), or fails for good.  After a failure the stream
gives nothing more, whatever would come later.

A fill of a source shows at least one byte: the end of a source is the end of the list of its fills,
and no empty fill in between.  A list of fills can hold an empty one all the same, namely a fill of
which all bytes have been taken; it is dropped when the next byte is asked for.

`ByteStream.next` decodes one character and takes no more from the stream than it needs, so a
failure is met exactly when the bytes it hides are asked for.  `ByteStream.decodeAll` collects
all characters and remembers at which of them the failure was met.
-/

import LineScript.Utf8

namespace LineScript

/-- One attempt to read from a source. -/
inductive Fill where
  /-- The attempt shows these bytes. -/
  | bytes (shown : List UInt8)
  /-- The attempt was interrupted; the next one decides. -/
  | interrupted
  /-- The attempt failed, for the given reason. -/
  | failure (reason : Text)
deriving DecidableEq, Repr

namespace Fill

/-- The number of bytes a fill shows. -/
def size : Fill → Nat
  | bytes shown => shown.length
  | interrupted => 0
  | failure _ => 0

/-- The number of bytes that fills show together. -/
def total : List Fill → Nat
  | [] => 0
  | fill :: fills => fill.size + total fills

/-- Cuts bytes into fills of at most `n` bytes each (at most one if `n` is zero). -/
def cut (n : Nat) (bs : List UInt8) : List Fill :=
  if h : bs = [] then []
  else
    have : 0 < bs.length := List.length_pos_iff.mpr h
    bytes (bs.take (max n 1)) :: cut n (bs.drop (max n 1))
termination_by bs.length
decreasing_by simp only [List.length_drop]; omega

end Fill

/-- What is still to come from a source of bytes. -/
structure ByteStream where
  /-- The attempts to come; bytes taken are removed from the first of them. -/
  fills : List Fill
  /-- Why the stream has failed, if it has. -/
  fault : Option Text := none
deriving DecidableEq, Repr

namespace ByteStream

/-- The number of bytes the attempts to come would show. -/
def size (s : ByteStream) : Nat :=
  Fill.total s.fills

/-- Takes the next byte off the attempts to come if it is `wanted`, and leaves it otherwise. -/
def pullFrom (wanted : UInt8 → Bool) : List Fill → Option UInt8 × ByteStream
  | [] => (none, ⟨[], none⟩)
  | .bytes [] :: fills => pullFrom wanted fills
  | .bytes (b :: bs) :: fills =>
    if wanted b then (some b, ⟨.bytes bs :: fills, none⟩)
    else (none, ⟨.bytes (b :: bs) :: fills, none⟩)
  | .interrupted :: fills => pullFrom wanted fills
  | .failure reason :: fills => (none, ⟨fills, some reason⟩)

/-- Takes the next byte if there is one and it is `wanted`.  A stream that has failed gives
nothing and is not read again. -/
def pull (wanted : UInt8 → Bool) (s : ByteStream) : Option UInt8 × ByteStream :=
  match s.fault with
  | some _ => (none, s)
  | none => pullFrom wanted s.fills

/-- Takes up to `n` continuation bytes. -/
def pullContinuation : Nat → ByteStream → List UInt8 × ByteStream
  | 0, s => ([], s)
  | n + 1, s =>
    match s.pull Utf8.isContinuation with
    | (none, s) => ([], s)
    | (some b, s) =>
      let (bs, s) := pullContinuation n s
      (b :: bs, s)

/-- Decodes the next character; `none` at the end of the stream. -/
def next (s : ByteStream) : Option Char × ByteStream :=
  match s.pull (fun _ => true) with
  | (none, s) => (none, s)
  | (some lead, s) =>
    let (bs, s) := pullContinuation (Utf8.sequenceLength lead - 1) s
    (some (Utf8.spell lead bs), s)

theorem size_pullFrom (wanted : UInt8 → Bool) (fills : List Fill) :
    (pullFrom wanted fills).2.size + (pullFrom wanted fills).1.toList.length
      ≤ Fill.total fills := by
  fun_induction pullFrom wanted fills with
  | case1 => exact Nat.le_refl _
  | case2 fills ih => exact Nat.le_trans ih (Nat.le_add_left _ _)
  | case3 b bs fills h =>
    simp only [size, Fill.total, Fill.size, List.length_cons, Option.toList_some,
      List.length_nil]
    omega
  | case4 b bs fills h => exact Nat.le_refl _
  | case5 fills ih => exact Nat.le_trans ih (Nat.le_add_left _ _)
  | case6 reason fills => exact Nat.le_add_left _ _

theorem size_pull (wanted : UInt8 → Bool) (s : ByteStream) :
    (s.pull wanted).2.size + (s.pull wanted).1.toList.length ≤ s.size := by
  unfold pull
  split
  · simp
  · exact size_pullFrom wanted s.fills

theorem size_pullContinuation_le (n : Nat) (s : ByteStream) :
    (s.pullContinuation n).2.size ≤ s.size := by
  fun_induction pullContinuation n s with
  | case1 => simp
  | case2 n s s' h =>
    have := size_pull Utf8.isContinuation s
    simp_all
  | case3 n s b s' h bs s'' h' ih =>
    have := size_pull Utf8.isContinuation s
    simp_all
    omega

/-- A character given means that at least one byte was taken. -/
theorem size_lt_of_next {s s' : ByteStream} {c : Char} (h : s.next = (some c, s')) :
    s'.size < s.size := by
  have hp := size_pull (fun _ => true) s
  unfold next at h
  split at h
  · simp at h
  · rename_i lead t heq
    have hc := size_pullContinuation_le (Utf8.sequenceLength lead - 1) t
    simp only [heq, Option.toList_some, List.length_singleton] at hp
    simp only [Prod.mk.injEq] at h
    obtain ⟨-, rfl⟩ := h
    omega

/-- A failure met while characters were asked for. -/
structure Fault where
  /-- Why reading failed. -/
  reason : Text
  /-- The failure cut the last character short; otherwise it came in place of a further one. -/
  cutsLast : Bool
deriving DecidableEq, Repr

/-- Everything a stream gives. -/
structure Decoded where
  /-- The characters. -/
  text : Text
  /-- The failure that ended them, if one did. -/
  fault : Option Fault
  /-- The stream once its end has been met. -/
  final : ByteStream
deriving DecidableEq, Repr

/-- Decodes a stream to its end. -/
def decodeAll (s : ByteStream) : Decoded :=
  match h : s.next with
  | (none, t) => ⟨[], t.fault.map (⟨·, false⟩), t⟩
  | (some c, t) =>
    match t.fault with
    | some reason => ⟨[c], some ⟨reason, true⟩, t⟩
    | none =>
      have : t.size < s.size := size_lt_of_next h
      let d := decodeAll t
      { d with text := c :: d.text }
termination_by s.size

end ByteStream
end LineScript
