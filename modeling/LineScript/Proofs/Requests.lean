/-
# Requests

There are four things that an evaluation can be asked for: the next unit of a reader, a text, a
command, and a script file.  What invariants and simulations say about evaluations is said here for
all four at once.
-/
import LineScript.Proofs.Simulation

namespace LineScript

/-- What an evaluation can be asked for. -/
inductive Request where
  /-- The next unit of a reader. -/
  | unit (r : Reader)
  /-- All units of a text. -/
  | text (code : Text)
  /-- A command with its arguments. -/
  | command (name : Text) (args : List Text)
  /-- A script file. -/
  | script (name : Text)

/-- The answer to a request. -/
def Request.answer (files : Files) (depth : Nat) : Request → World → Answer
  | unit r, w => (run files depth).answer .unit r w
  | text code, w => evalText files depth code w
  | command name args, w => dispatch files depth name args w
  | script name, w => load files depth name w

variable (files : Files) (depth : Nat) (q : Request) {w w' : World}

/-- Every answer keeps an invariant. -/
theorem Invariant.sound_answer (I : Invariant) (h : I.holds w) :
    I.Sound (.ofAnswer (q.answer files depth w) (.ofText [])) := by
  have hn := I.sound_run files depth
  cases q with
  | unit r => exact ⟨(hn .unit r h).holds, (hn .unit r h).admits⟩
  | text code => exact ⟨(hn .body (.ofText code) h).holds, (hn .body (.ofText code) h).admits⟩
  | command name args => exact sound_dispatchWith hn h name args _
  | script name => exact sound_loadScript hn h name _

/-- Every answer only adds to the console. -/
theorem grows_answer (w : World) : w.console.Grows (q.answer files depth w).world.console :=
  ((Invariant.growth w.console).sound_answer files depth q (.refl _)).holds

namespace Simulation

lemma related_answer (S : Simulation) (h : S.rel w w') :
    S.Related (.ofAnswer (q.answer files depth w) (.ofText []))
      (.ofAnswer (q.answer files depth w') (.ofText [])) := by
  have hn := S.related_run files (Nat.le_refl depth) (.inl rfl)
  have hr := S.reads_refl (.ofText [])
  cases q with
  | unit r => exact (hn .unit (S.reads_refl r) h).ofAnswer hr
  | text code => exact (hn .body (S.reads_refl (.ofText code)) h).ofAnswer hr
  | command name args => exact related_dispatchWith hn (grows_run files depth) name args hr h
  | script name => exact related_loadScript hn name hr h

/-- In corresponding worlds the answers are the same and leave corresponding worlds, or the first
evaluation is lost. -/
theorem answer_cases (S : Simulation) (h : S.rel w w') :
    let a := q.answer files depth w
    let a' := q.answer files depth w'
    (a'.outcome = a.outcome ∧ S.rel a.world a'.world) ∨
      (∃ e, a.outcome = .error e ∧ S.lost (some e) a.world.console a'.world.console) ∨
      (a.outcome = .unfinished ∧ S.lost none a.world.console a'.world.console) := by
  have hrel := S.related_answer files depth q h
  generalize q.answer files depth w = a, q.answer files depth w' = a' at hrel
  obtain ⟨o, v⟩ := a
  obtain ⟨o', v'⟩ := a'
  dsimp only [Run.ofAnswer] at hrel ⊢
  cases hrel with
  | same _ hv => exact .inl ⟨rfl, hv⟩
  | error hlost => exact .inr (.inl ⟨_, rfl, hlost⟩)
  | unfinished hlost => exact .inr (.inr ⟨rfl, hlost⟩)

end Simulation
end LineScript
