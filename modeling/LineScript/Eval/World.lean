/-
# The state of an evaluation

An evaluation changes a world: the namespace in which it runs, and the console.  It reads from a
reader, and ends with an outcome.  Two kinds of results are kept apart: an `Answer` says how
something ended that reads no script of its own, and a `Run` also says where the reader was left.

A failure of the input is noted in the journal at the moment the reader comes to it.  So readers
are used through `pull`, `look` and `skip`, which make that note.
-/

import LineScript.Console
import LineScript.Namespace
import LineScript.Reader

namespace LineScript

/-- What an evaluation changes. -/
structure World where
  /-- The names known. -/
  scope : Namespace
  /-- What has been shown. -/
  console : Console

namespace World

/-- Adds a note to the journal. -/
def note (w : World) (n : Note) : World :=
  { w with console := w.console.note n }

/-- Adds notes to the journal, in order. -/
def notes (w : World) (ns : List Note) : World :=
  { w with console := w.console.notes ns }

/-- Writes a text to a channel, and tells whether the channel took all of it. -/
def emit (w : World) (channel : Channel) (t : Text) : Bool × World :=
  let (ok, c) := w.console.writeText channel t
  (ok, { w with console := c })

end World

/-- How an evaluation ended. -/
inductive Outcome (α : Type) where
  /-- With a value. -/
  | ok (value : α)
  /-- With an error. -/
  | error (cause : Error)
  /-- Not at all: it went deeper than it was allowed to. -/
  | unfinished
deriving DecidableEq, Repr

namespace Outcome

/-- Changes the value of an outcome. -/
def map {α β : Type} (f : α → β) : Outcome α → Outcome β
  | ok a => ok (f a)
  | error e => error e
  | unfinished => unfinished

/-- The outcome of a computation that always ends. -/
def ofExcept {α : Type} : Except Error α → Outcome α
  | .ok a => ok a
  | .error e => error e

end Outcome

/-- The result of an evaluation. -/
structure Answer where
  /-- How it ended. -/
  outcome : Outcome Text
  /-- The world it left. -/
  world : World

/-- The result of an evaluation that reads from a reader. -/
structure Run (α : Type) where
  /-- How it ended. -/
  outcome : Outcome α
  /-- Where it left the reader. -/
  reader : Reader
  /-- The world it left. -/
  world : World

namespace Run

/-- Changes the value of a run. -/
def map {α β : Type} (f : α → β) (x : Run α) : Run β :=
  ⟨x.outcome.map f, x.reader, x.world⟩

@[simp] theorem reader_map {α β : Type} (f : α → β) (x : Run α) :
    (x.map f).reader = x.reader := rfl

end Run

/-! ### Using a reader -/

/-- Notes the failure of the input if the reader has come to it. -/
def observe (r : Reader) (w : World) : Reader × World :=
  match r.faultMet? with
  | some reason => (r.acknowledge, w.note (.inputFailed reason))
  | none => (r, w)

@[simp] theorem rest_observe (r : Reader) (w : World) : (observe r w).1.rest = r.rest := by
  unfold observe
  split <;> simp

/-- A reader that cannot fail is left alone. -/
@[simp] theorem observe_of_fault_eq_none {r : Reader} (w : World) (h : r.fault = none) :
    observe r w = (r, w) := by
  simp [observe, Reader.faultMet?, h]

/-- A token taken from a reader. -/
structure Pulled where
  /-- The token; `none` at the end. -/
  token : Option Text
  /-- The reader behind it. -/
  reader : Reader
  /-- The world, with the failure of the input noted if it was met. -/
  world : World

/-- Takes the next token. -/
def pull (r : Reader) (w : World) : Pulled :=
  let (t, r) := r.next
  let (r, w) := observe r w
  ⟨t, r, w⟩

/-- What a look at a reader shows. -/
structure Looked where
  /-- No character is left. -/
  exhausted : Bool
  /-- The reader, whose first character has been looked at. -/
  reader : Reader
  /-- The world, with the failure of the input noted if it was met. -/
  world : World

/-- Looks whether a character is left. -/
def look (r : Reader) (w : World) : Looked :=
  let (b, r) := r.isExhausted
  let (r, w) := observe r w
  ⟨b, r, w⟩

/-- Discards the rest of the line under way. -/
def skip (r : Reader) (w : World) : Reader × World :=
  observe r.skipLine w

theorem token_pull (r : Reader) (w : World) : (pull r w).token = (lex r.rest).token := rfl

@[simp] theorem rest_pull (r : Reader) (w : World) :
    (pull r w).reader.rest = (lex r.rest).rest := by
  simp [pull]

theorem exhausted_look (r : Reader) (w : World) :
    (look r w).exhausted = r.rest.isEmpty := rfl

@[simp] theorem rest_look (r : Reader) (w : World) : (look r w).reader.rest = r.rest := by
  simp [look]

/-- A token given means that the reader has moved on. -/
theorem length_lt_of_pull {r r' : Reader} {w w' : World} {t : Text}
    (h : pull r w = ⟨some t, r', w'⟩) : r'.rest.length < r.rest.length := by
  have ht : (lex r.rest).token = some t := by
    rw [← token_pull r w, h]
  have hr : r'.rest = (lex r.rest).rest := by
    rw [← rest_pull r w, h]
  rw [hr]
  exact length_rest_lex_lt ht

/-- Taking a token never moves a reader back. -/
theorem length_le_of_pull {r r' : Reader} {w w' : World} {t : Option Text}
    (h : pull r w = ⟨t, r', w'⟩) : r'.rest.length ≤ r.rest.length := by
  have hr : r'.rest = (lex r.rest).rest := by
    rw [← rest_pull r w, h]
  rw [hr]
  exact length_rest_lex_le r.rest

theorem rest_of_look {r r' : Reader} {w w' : World} {b : Bool}
    (h : look r w = ⟨b, r', w'⟩) : r'.rest = r.rest := by
  rw [← rest_look r w, h]

theorem rest_eq_nil_iff_of_look {r r' : Reader} {w w' : World} {b : Bool}
    (h : look r w = ⟨b, r', w'⟩) : r.rest = [] ↔ b = true := by
  have hb : r.rest.isEmpty = b := by
    rw [← exhausted_look r w, h]
  rw [← hb, List.isEmpty_iff]

theorem length_rest_skip_le (r : Reader) (w : World) :
    (skip r w).1.rest.length ≤ r.rest.length := by
  simpa [skip] using r.length_rest_skipLine_le

end LineScript
