/-
# Failing input

A reader whose input fails goes on as if the text ended there.  All that the failure leaves behind
is a note in the journal.  So evaluation depends on a reader only through the characters that are
still to come, and on the journal not at all: `run_congr_quiet` compares two runs on the same
characters, in worlds that may differ in the notes on failed input.
-/
import LineScript.Proofs.Simulation

namespace LineScript

/-- The entry is the note that the input has failed. -/
def Entry.isInputFailure : Entry → Bool
  | .note (.inputFailed _) => true
  | _ => false

/-- The console without the notes on failed input. -/
def Console.quiet (c : Console) : Console :=
  { c with journal := c.journal.filter (!·.isInputFailure) }

/-- The world without the notes on failed input. -/
def World.quiet (w : World) : World :=
  { w with console := w.console.quiet }

@[simp] lemma World.scope_quiet (w : World) : w.quiet.scope = w.scope := rfl

lemma Console.room_quiet (c : Console) : c.quiet.room = c.room := rfl

lemma Console.quiet_write (c : Console) (channel : Channel) (bs : List UInt8) :
    c.quiet.write channel bs = ((c.write channel bs).1, (c.write channel bs).2.quiet) := by
  induction bs generalizing c with
  | nil => rfl
  | cons b bs ih =>
    by_cases h : c.room.on channel = some 0
    · rw [write_cons_of_full h, write_cons_of_full (show c.quiet.room.on channel = some 0 from h)]
    · simp only [write, room_quiet, h, if_false]
      rw [← ih]
      rfl

lemma Console.quiet_note_congr {c d : Console} (h : c.quiet = d.quiet) (n : Note) :
    (c.note n).quiet = (d.note n).quiet := by
  have hroom : c.room = d.room := by rw [← c.room_quiet, h, d.room_quiet]
  have hjournal : c.quiet.journal = d.quiet.journal := by rw [h]
  simp only [quiet] at hjournal
  simp only [quiet, note, List.filter_cons, hroom, hjournal]

lemma World.scope_eq_of_quiet_eq {w w' : World} (h : w.quiet = w'.quiet) : w.scope = w'.scope := by
  rw [← w.scope_quiet, h, w'.scope_quiet]

lemma World.quiet_note_congr {w w' : World} (h : w.quiet = w'.quiet) (n : Note) :
    (w.note n).quiet = (w'.note n).quiet := by
  have hscope := scope_eq_of_quiet_eq h
  have hconsole : w.console.quiet = w'.console.quiet := congrArg World.console h
  simp only [quiet, note, hscope, Console.quiet_note_congr hconsole n]

lemma World.quiet_emit (w : World) (channel : Channel) (t : Text) :
    w.quiet.emit channel t = ((w.emit channel t).1, (w.emit channel t).2.quiet) := by
  have h := Console.quiet_write w.console channel (Utf8.encode t)
  simp only [emit, quiet, Console.writeText, h]

@[simp] lemma quiet_observe (r : Reader) (w : World) : (observe r w).2.quiet = w.quiet := by
  unfold observe
  split
  · simp [World.quiet, World.note, Console.quiet, Console.note, Entry.isInputFailure]
  · rfl

lemma quiet_pull (r : Reader) (w : World) : (pull r w).world.quiet = w.quiet :=
  quiet_observe r.next.2 w

lemma quiet_look (r : Reader) (w : World) : (look r w).world.quiet = w.quiet :=
  quiet_observe r.isExhausted.2 w

/-- The same characters, in worlds that differ in the notes on failed input. -/
def Simulation.quiet : Simulation where
  reads r r' := r.rest = r'.rest
  rel w w' := w.quiet = w'.quiet
  lost _ _ _ := False
  lost_grows h _ := h
  reads_refl _ := rfl
  rest_eq h := h
  reads_pull hr hw := by simp only [rest_pull, quiet_pull, hr, hw, and_self]
  reads_look hr hw := by simp only [rest_look, quiet_look, hr, hw, and_self]
  rel_note n h := World.quiet_note_congr h n
  rel_put {w w'} t h := by
    have he := World.quiet_emit w .script t
    rw [h, World.quiet_emit w' .script t, Prod.mk.injEq] at he
    exact .inl ⟨he.1.symm, he.2.symm⟩
  rel_value name h := .inl (congrArg (·.scope.values.get? name) h)
  rel_resolve name h := .inl (congrArg (·.scope.resolve name) h)
  rel_library h := congrArg (·.scope.library) h
  rel_set name value h := congrArg (fun w => { w with scope := w.scope.setVariable name value }) h
  rel_define name p h := congrArg (fun w => { w with scope := w.scope.defineProcedure name p }) h
  rel_leave {w w' v v'} h h' := by
    rw [World.scope_eq_of_quiet_eq h]
    exact congrArg (fun v => { v with scope := w'.scope }) h'

/-- Evaluation depends on a reader only through its characters, and neither on the notes on failed
input nor on whether its own input fails. -/
theorem run_congr_quiet (files : Files) (depth : Nat) (extent : Extent) (r r' : Reader)
    {w w' : World} (hr : r.rest = r'.rest) (hw : w.quiet = w'.quiet) :
    (run files depth extent r w).outcome = (run files depth extent r' w').outcome ∧
      (run files depth extent r w).reader.rest = (run files depth extent r' w').reader.rest ∧
      (run files depth extent r w).world.quiet = (run files depth extent r' w').world.quiet := by
  have h := Simulation.quiet.related_run files (Nat.le_refl depth) (.inl rfl) extent hr hw
  generalize run files depth extent r w = x, run files depth extent r' w' = x' at h ⊢
  cases h with
  | same hr hw => exact ⟨rfl, hr, hw⟩
  | error h => exact h.elim
  | unfinished h => exact h.elim

end LineScript
