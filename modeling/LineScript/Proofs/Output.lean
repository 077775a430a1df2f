/-
# What has been written

The journal of a console keeps the bytes on all channels; `Console.bytes` are those on one of them,
in the order in which they were written.  What is written stays: growth extends the output of
scripts at its end, and leaves the other channels alone.

Evaluation does not look at the journal.  So what a request comes to in a world with a longer past
is what it comes to without that past, put on top of it (`answer_onto`).
-/
import LineScript.Proofs.Requests

namespace LineScript

lemma bytesOn_append (channel : Channel) (es es' : List Entry) :
    bytesOn channel (es ++ es') = bytesOn channel es ++ bytesOn channel es' :=
  List.filterMap_append

lemma bytesOn_map_byte (channel : Channel) (bs : List UInt8) :
    bytesOn channel (bs.map (.byte channel)) = bs := by
  induction bs with
  | nil => rfl
  | cons b bs ih =>
    simp only [List.map_cons, bytesOn, List.filterMap_cons, if_true]
    exact congrArg (b :: ·) ih

lemma Room.spend_of_on_eq_none {room : Room} {channel : Channel} (h : room.on channel = none) :
    room.spend channel = room := by
  obtain ⟨script, reply, complaint⟩ := room
  cases channel
  all_goals
    simp only [Room.on] at h
    subst h
    rfl

namespace Console

/-- The bytes written to a channel so far. -/
def bytes (c : Console) (channel : Channel) : List UInt8 :=
  bytesOn channel c.journal.reverse

variable (c : Console) (channel : Channel)

@[simp] lemma bytes_note (n : Note) : (c.note n).bytes channel = c.bytes channel := by
  simp [bytes, note, bytesOn]

/-- The bytes on a channel once a byte has been written to some channel. -/
lemma bytes_cons (other : Channel) (b : UInt8) (room : Room) :
    (⟨.byte other b :: c.journal, room⟩ : Console).bytes channel =
      c.bytes channel ++ if other = channel then [b] else [] := by
  by_cases h : other = channel <;> simp [bytes, bytesOn, h]

lemma bytes_write_isPrefix (other : Channel) (bs : List UInt8) :
    c.bytes channel <+: (c.write other bs).2.bytes channel := by
  induction bs generalizing c with
  | nil => exact List.prefix_refl _
  | cons b bs ih =>
    rw [write]
    split
    · exact List.prefix_refl _
    · refine List.IsPrefix.trans ?_ (ih _)
      rw [bytes_cons]
      exact List.prefix_append _ _

lemma bytes_write_of_ne {other : Channel} (h : other ≠ channel) (bs : List UInt8) :
    (c.write other bs).2.bytes channel = c.bytes channel := by
  induction bs generalizing c with
  | nil => rfl
  | cons b bs ih =>
    rw [write]
    split
    · rfl
    · rw [ih, bytes_cons, if_neg h, List.append_nil]

variable {c channel}

/-- A channel that takes any number of bytes takes all of them. -/
lemma write_of_on_eq_none (h : c.room.on channel = none) (bs : List UInt8) :
    c.write channel bs =
      (true, { c with journal := (bs.map (.byte channel)).reverse ++ c.journal }) := by
  induction bs generalizing c with
  | nil => rfl
  | cons b bs ih =>
    have hnext : (⟨.byte channel b :: c.journal, c.room⟩ : Console).room.on channel = none := h
    rw [write, if_neg (by simp [h]), Room.spend_of_on_eq_none h, ih hnext]
    simp

lemma bytes_write_of_on_eq_none (h : c.room.on channel = none) (bs : List UInt8) :
    (c.write channel bs).2.bytes channel = c.bytes channel ++ bs := by
  rw [write_of_on_eq_none h, bytes, List.reverse_append, List.reverse_reverse, bytesOn_append,
    bytesOn_map_byte]
  rfl

namespace Grows

variable {d : Console} (h : c.Grows d)
include h

/-- What has been written is not taken back. -/
lemma bytes_isPrefix (channel : Channel) : c.bytes channel <+: d.bytes channel := by
  induction h with
  | refl => exact List.prefix_refl _
  | note n _ ih => rwa [bytes_note]
  | put bs _ ih => exact ih.trans (bytes_write_isPrefix _ _ _ _)

/-- Evaluation writes to one channel only. -/
lemma bytes_eq (hc : channel ≠ .script) : d.bytes channel = c.bytes channel := by
  induction h with
  | refl => rfl
  | note n _ ih => rwa [bytes_note]
  | put bs _ ih => rwa [bytes_write_of_ne _ _ (Ne.symm hc)]

/-- Where the output of scripts has no limit, no room is used up. -/
lemma room_eq (hroom : c.room.script = none) : d.room = c.room := by
  induction h with
  | refl => rfl
  | note n _ ih => exact ih
  | put bs _ ih => rw [write_of_on_eq_none (show Room.on _ .script = none from ih ▸ hroom), ih]

end Grows
end Console

/-- What scripts have written. -/
def World.output (w : World) : List UInt8 :=
  w.console.bytes .script

/-! ### The past -/

/-- The console with older entries below its own. -/
def Console.onto (c : Console) (past : List Entry) : Console :=
  { c with journal := c.journal ++ past }

/-- The world with older entries below those of its journal. -/
def World.onto (w : World) (past : List Entry) : World :=
  { w with console := w.console.onto past }

lemma Console.onto_write (c : Console) (past : List Entry) (channel : Channel)
    (bs : List UInt8) :
    (c.onto past).write channel bs =
      ((c.write channel bs).1, (c.write channel bs).2.onto past) := by
  induction bs generalizing c with
  | nil => rfl
  | cons b bs ih =>
    by_cases h : c.room.on channel = some 0
    · rw [write_cons_of_full h, write_cons_of_full (show (c.onto past).room.on channel = _ from h)]
    · rw [write, write, if_neg h, if_neg (show ¬(c.onto past).room.on channel = _ from h)]
      exact ih ⟨.byte channel b :: c.journal, c.room.spend channel⟩

lemma World.onto_emit (w : World) (past : List Entry) (channel : Channel) (t : Text) :
    (w.onto past).emit channel t =
      ((w.emit channel t).1, (w.emit channel t).2.onto past) := by
  simp only [emit, onto, Console.writeText, Console.onto_write]

lemma World.output_onto (w : World) (past : List Entry) :
    (w.onto past).output = bytesOn .script past.reverse ++ w.output := by
  simp only [output, onto, Console.bytes, Console.onto, List.reverse_append, bytesOn_append]

/-- The entries of the journal, oldest first. -/
def World.entries (w : World) : List Entry :=
  w.console.journal.reverse

/-- The world without its past. -/
def World.cleared (w : World) : World :=
  { w with console := { w.console with journal := [] } }

lemma World.cleared_onto (w : World) : w.cleared.onto w.console.journal = w := rfl

lemma World.entries_onto (w : World) (past : List Entry) :
    (w.onto past).entries = past.reverse ++ w.entries :=
  List.reverse_append

/-- The same world, on top of a past. -/
def Simulation.onto (past : List Entry) : Simulation where
  reads := Eq
  rel w w' := w' = w.onto past
  lost _ _ _ := False
  lost_grows h _ := h
  reads_refl _ := rfl
  rest_eq h := congrArg Reader.rest h
  reads_pull := pull_of_note (fun w w' => w' = w.onto past) fun n h => congrArg (World.note · n) h
  reads_look := look_of_note (fun w w' => w' = w.onto past) fun n h => congrArg (World.note · n) h
  rel_note n h := congrArg (·.note n) h
  rel_put {w w'} t h := by
    rw [h, World.onto_emit]
    exact .inl ⟨rfl, rfl⟩
  rel_value name h := .inl (congrArg (·.scope.values.get? name) h.symm)
  rel_resolve name h := .inl (congrArg (·.scope.resolve name) h.symm)
  rel_library h := congrArg (·.scope.library) h.symm
  rel_set name value h := by rw [h]; rfl
  rel_define name p h := by rw [h]; rfl
  rel_leave h h' := by rw [h, h']; rfl

lemma run_onto (files : Files) (depth : Nat) (extent : Extent) (r : Reader) (w : World)
    (past : List Entry) :
    run files depth extent r (w.onto past) =
      ⟨(run files depth extent r w).outcome, (run files depth extent r w).reader,
        (run files depth extent r w).world.onto past⟩ := by
  have h := (Simulation.onto past).related_run files (Nat.le_refl depth) (.inl rfl) extent
    (rfl : r = r) (rfl : w.onto past = w.onto past)
  generalize run files depth extent r w = x, run files depth extent r (w.onto past) = x' at h ⊢
  cases h with
  | same hr hw =>
    obtain rfl := hr
    obtain rfl := hw
    rfl
  | error h => exact h.elim
  | unfinished h => exact h.elim

/-- Evaluation does not look at what has been written and noted before. -/
theorem answer_onto (files : Files) (depth : Nat) (q : Request) (w : World)
    (past : List Entry) :
    q.answer files depth (w.onto past) =
      ⟨(q.answer files depth w).outcome, (q.answer files depth w).world.onto past⟩ := by
  rcases (Simulation.onto past).answer_cases files depth q rfl with
    ⟨ho, hw⟩ | ⟨_, -, hlost⟩ | ⟨-, hlost⟩
  · rw [← ho, ← hw]
  · exact hlost.elim
  · exact hlost.elim

end LineScript
