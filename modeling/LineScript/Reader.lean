/-
# Readers

A reader is a place in a script: the characters that are still to come, and the little that the
past leaves behind.  It hands out tokens, tells whether anything is left, and discards the rest of
a line under way.

A reader over a byte stream may meet the failure of the stream.  Since characters are only asked
for when they are needed, the failure is met when the last character that it cuts short, or the
place behind the last character, is looked at; `faultMet?` says whether that has happened.
-/

import LineScript.Token
import LineScript.ByteStream

namespace LineScript

/-- A place in a script. -/
structure Reader where
  /-- The characters to come. -/
  rest : Text
  /-- The first of them, or the end if there is none, has been looked at. -/
  looked : Bool := false
  /-- Part of a line has been handed out, but not its newline. -/
  midLine : Bool := false
  /-- The failure that ends the characters, as long as it has not been reported. -/
  fault : Option ByteStream.Fault := none
deriving DecidableEq, Repr

namespace Reader

/-- A reader at the start of a text. -/
def ofText (t : Text) : Reader where
  rest := t

/-- A reader at the start of a byte stream. -/
def ofStream (s : ByteStream) : Reader where
  rest := s.decodeAll.text
  fault := s.decodeAll.fault

/-- The next token; `none` at the end. -/
def next (r : Reader) : Option Text × Reader :=
  let l := lex r.rest
  (l.token,
    { r with
      rest := l.rest
      looked := l.looked
      midLine := l.token.any (· ≠ newline) })

/-- Tells whether no character is left, by looking at the first one. -/
def isExhausted (r : Reader) : Bool × Reader :=
  (r.rest.isEmpty, { r with looked := true })

/-- Discards the rest of the line under way, with its newline.  Between lines nothing is
discarded. -/
def skipLine (r : Reader) : Reader :=
  if r.midLine then
    let line := skipComment r.rest
    { r with
      rest := line.tail
      looked := line.isEmpty
      midLine := false }
  else r

/-- The end of the characters has been looked at. -/
def metEnd (r : Reader) : Bool :=
  r.rest.isEmpty && r.looked

/-- The reason of the failure, if the reader has come to it and not reported it yet. -/
def faultMet? (r : Reader) : Option Text :=
  r.fault.bind fun f =>
    if r.rest.length < f.cutsLast.toNat + r.looked.toNat then some f.reason else none

/-- The reader once its failure has been reported. -/
def acknowledge (r : Reader) : Reader :=
  { r with fault := none }

@[simp] theorem rest_ofText (t : Text) : (ofText t).rest = t := rfl

@[simp] theorem fault_ofText (t : Text) : (ofText t).fault = none := rfl

@[simp] theorem rest_next (r : Reader) : r.next.2.rest = (lex r.rest).rest := rfl

@[simp] theorem fault_next (r : Reader) : r.next.2.fault = r.fault := rfl

@[simp] theorem rest_isExhausted (r : Reader) : r.isExhausted.2.rest = r.rest := rfl

@[simp] theorem fault_isExhausted (r : Reader) : r.isExhausted.2.fault = r.fault := rfl

@[simp] theorem rest_acknowledge (r : Reader) : r.acknowledge.rest = r.rest := rfl

/-- Between lines there is nothing to discard. -/
theorem skipLine_of_not_midLine {r : Reader} (h : r.midLine = false) : r.skipLine = r := by
  simp [skipLine, h]

@[simp] theorem midLine_skipLine (r : Reader) : r.skipLine.midLine = false := by
  cases h : r.midLine <;> simp [skipLine, h]

theorem length_rest_skipLine_le (r : Reader) : r.skipLine.rest.length ≤ r.rest.length := by
  have h := length_skipComment_le r.rest
  unfold skipLine
  split
  · simp only [List.length_tail]
    omega
  · exact Nat.le_refl _

end Reader
end LineScript
