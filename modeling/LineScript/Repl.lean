/-
# The interactive loop

Each round writes the prompt and evaluates one unit.  Its value is written behind the prompt; an
error is written to the channel for errors, after the rest of the failed line has been discarded,
and the loop goes on with what the unit managed to change.  The loop ends when no character is left,
and early only if a channel fails.
-/

import LineScript.Eval.Run

namespace LineScript
namespace Repl

/-- What stands in front of each unit. -/
def prompt : Text := ">> ".toList

/-- What is shown before the first prompt. -/
def banner : Text := "[skicl, ver 0.1.0]\n\na tiny tcl dialect\n".toList

/-- How the loop ended. -/
inductive Ending where
  /-- The input was used up. -/
  | finished
  /-- A channel failed. -/
  | channelFailed
  /-- A unit was nested too deeply. -/
  | unfinished
deriving DecidableEq, Repr

/-- What a round of the loop comes to. -/
inductive Round where
  /-- Another round follows. -/
  | next (r : Reader) (w : World)
  /-- The loop ends. -/
  | stop (ending : Ending) (r : Reader) (w : World)

/-- The line that shows an error. -/
def errorLine (e : Error) : Text :=
  "error: ".toList ++ e.message ++ newline

/-- Goes on to the next round if the channel took what was written to it. -/
def goOn (r : Reader) : Bool × World → Round
  | (true, w) => .next r w
  | (false, w) => .stop .channelFailed r w

/-- Shows what came of a unit. -/
def respond (x : Run Text) : Round :=
  match x.outcome with
  | .ok value => goOn x.reader (x.world.emit .reply (value ++ newline))
  | .error e =>
    let (r, w) := skip x.reader x.world
    goOn r (w.emit .complaint (errorLine e))
  | .unfinished => .stop .unfinished x.reader x.world

/-- One round of the loop. -/
def round (files : Files) (depth : Nat) (r : Reader) (w : World) : Round :=
  match w.emit .reply prompt with
  | (false, w) => .stop .channelFailed r w
  | (true, w) =>
    match look r w with
    | ⟨true, r, w⟩ =>
      match w.emit .reply newline with
      | (true, w) => .stop .finished r w
      | (false, w) => .stop .channelFailed r w
    | ⟨false, r, w⟩ => respond (run files depth .unit r w)

theorem reader_of_goOn {r r' : Reader} {x : Bool × World} {w' : World}
    (h : goOn r x = .next r' w') : r' = r := by
  obtain ⟨ok, w⟩ := x
  cases ok
  · simp [goOn] at h
  · simp only [goOn, Round.next.injEq] at h
    exact h.1.symm

/-- Showing the result of a unit never moves the reader back. -/
theorem length_le_of_respond {x : Run Text} {r' : Reader} {w' : World}
    (h : respond x = .next r' w') : r'.rest.length ≤ x.reader.rest.length := by
  unfold respond at h
  split at h
  · exact Nat.le_of_eq (congrArg (·.rest.length) (reader_of_goOn h))
  · rw [reader_of_goOn h]
    exact length_rest_skip_le _ _
  · simp at h

/-- A unit that ends takes at least one character, if there is one. -/
theorem length_rest_run_unit_lt {files : Files} {depth : Nat} {r : Reader} {w : World}
    (hr : r.rest ≠ []) (h : (run files depth .unit r w).outcome ≠ .unfinished) :
    (run files depth .unit r w).reader.rest.length < r.rest.length := by
  cases depth with
  | zero => simp [run] at h
  | succ depth =>
    change (evalUnit files (run files depth) r w).reader.rest.length < r.rest.length
    rw [reader_evalUnit]
    exact length_rest_arguments_lt _ w hr

/-- Each round that is followed by another takes at least one character. -/
theorem length_lt_of_round {files : Files} {depth : Nat} {r r' : Reader} {w w' : World}
    (h : round files depth r w = .next r' w') : r'.rest.length < r.rest.length := by
  unfold round at h
  split at h
  · simp at h
  split at h
  · split at h <;> simp at h
  · rename_i r₁ w₁ hl
    have hne : r₁.rest ≠ [] := fun hnil => by
      rw [rest_of_look hl] at hnil
      exact Bool.false_ne_true ((rest_eq_nil_iff_of_look hl).mp hnil)
    have hu : (run files depth .unit r₁ w₁).outcome ≠ .unfinished := fun hu => by
      simp [respond, hu] at h
    rw [← rest_of_look hl]
    exact Nat.lt_of_le_of_lt (length_le_of_respond h) (length_rest_run_unit_lt hne hu)

/-- What the whole loop comes to. -/
structure Result where
  /-- How it ended. -/
  ending : Ending
  /-- Where it left the reader. -/
  reader : Reader
  /-- The world it left. -/
  world : World

/-- Evaluates unit after unit until the input is used up. -/
def loop (files : Files) (depth : Nat) (r : Reader) (w : World) : Result :=
  match h : round files depth r w with
  | .next r' w' =>
    have : r'.rest.length < r.rest.length := length_lt_of_round h
    loop files depth r' w'
  | .stop ending r' w' => ⟨ending, r', w'⟩
termination_by r.rest.length

end Repl
end LineScript
