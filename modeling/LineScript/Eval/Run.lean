/-
# Evaluation of scripts

A unit is read token by token up to a newline or the end.  Empty tokens are dropped, `$name` gives
the value of a variable, a block is evaluated on the spot and gives its value, and every other
token gives itself.  The first of the arguments so found names the command to run with the others.

Blocks, procedure bodies and loaded scripts are evaluated one level further down.  `run` is a
recursion on the number of levels that are allowed; everything within a level ends because the
reader moves on.  So an outcome is `unfinished` only if some evaluation was nested too deeply.
-/

import LineScript.Eval.Block
import LineScript.Eval.Command

namespace LineScript

/-- Evaluates the block whose opening bracket has just been read, as a unit. -/
def evalBlock (nested : Evaluation) (r : Reader) (w : World) : Run Text :=
  let c := collect 0 r w
  if c.closed then
    let a := nested.answer .unit (.ofText c.code) c.world
    ⟨a.outcome, c.reader, a.world⟩
  else ⟨.error (.unclosedBlock c.code), c.reader, c.world⟩

/-- The argument that a token stands for. -/
def argument (nested : Evaluation) (t : Text) (r : Reader) (w : World) : Run Text :=
  match t with
  | '$' :: name =>
    match w.scope.values.get? name with
    | some value => ⟨.ok value, r, w⟩
    | none => ⟨.error (.unknownVariable name), r, w⟩
  | _ => if t = openBlock then evalBlock nested r w else ⟨.ok t, r, w⟩

theorem length_rest_argument_le (nested : Evaluation) (t : Text) (r : Reader) (w : World) :
    (argument nested t r w).reader.rest.length ≤ r.rest.length := by
  have h := length_rest_collect_le 0 r w
  unfold argument
  split
  · split <;> exact Nat.le_refl _
  · split
    · unfold evalBlock
      dsimp only
      split <;> exact h
    · exact Nat.le_refl _

theorem length_le_of_argument {nested : Evaluation} {t : Text} {r r' : Reader} {w w' : World}
    {o : Outcome Text} (h : argument nested t r w = ⟨o, r', w'⟩) :
    r'.rest.length ≤ r.rest.length := by
  have := length_rest_argument_le nested t r w
  rwa [h] at this

/-- The arguments on the rest of a line. -/
def arguments (nested : Evaluation) (r : Reader) (w : World) : Run (List Text) :=
  match h : pull r w with
  | ⟨none, r₁, w₁⟩ => ⟨.ok [], r₁, w₁⟩
  | ⟨some t, r₁, w₁⟩ =>
    if t = [] then
      have : r₁.rest.length < r.rest.length := length_lt_of_pull h
      arguments nested r₁ w₁
    else if t = newline then ⟨.ok [], r₁, w₁⟩
    else
      match h' : argument nested t r₁ w₁ with
      | ⟨.ok value, r₂, w₂⟩ =>
        have : r₂.rest.length < r.rest.length :=
          Nat.lt_of_le_of_lt (length_le_of_argument h') (length_lt_of_pull h)
        (arguments nested r₂ w₂).map (value :: ·)
      | ⟨.error e, r₂, w₂⟩ => ⟨.error e, r₂, w₂⟩
      | ⟨.unfinished, r₂, w₂⟩ => ⟨.unfinished, r₂, w₂⟩
termination_by r.rest.length

theorem length_rest_arguments_le (nested : Evaluation) (r : Reader) (w : World) :
    (arguments nested r w).reader.rest.length ≤ r.rest.length := by
  fun_induction arguments nested r w with
  | case1 r w r₁ w₁ h => exact length_le_of_pull h
  | case2 r w r₁ w₁ h this ih => exact Nat.le_trans ih (Nat.le_of_lt this)
  | case3 r w r₁ w₁ h _ => exact length_le_of_pull h
  | case4 r w t r₁ w₁ h _ _ value r₂ w₂ h' this ih =>
    exact Nat.le_trans ih (Nat.le_of_lt this)
  | case5 r w t r₁ w₁ h _ _ e r₂ w₂ h' =>
    exact Nat.le_trans (length_le_of_argument h') (length_le_of_pull h)
  | case6 r w t r₁ w₁ h _ _ r₂ w₂ h' =>
    exact Nat.le_trans (length_le_of_argument h') (length_le_of_pull h)

/-- Reading the arguments of a line takes at least one character, if there is one. -/
theorem length_rest_arguments_lt (nested : Evaluation) {r : Reader} (w : World)
    (hr : r.rest ≠ []) : (arguments nested r w).reader.rest.length < r.rest.length := by
  have hpos : 0 < r.rest.length := List.length_pos_iff.mpr hr
  have hn : ∀ r₁ w₁, pull r w = ⟨none, r₁, w₁⟩ → r₁.rest.length < r.rest.length := by
    intro r₁ w₁ h
    have ht : (lex r.rest).token = none := by
      rw [← token_pull r w, h]
    have hr₁ : r₁.rest = (lex r.rest).rest := by
      rw [← rest_pull r w, h]
    rw [hr₁, rest_lex_of_token_eq_none ht]
    exact hpos
  rw [arguments]
  split
  · rename_i r₁ w₁ h
    exact hn r₁ w₁ h
  · rename_i t r₁ w₁ h
    have h₁ := length_lt_of_pull h
    dsimp only
    split
    · exact Nat.lt_of_le_of_lt (length_rest_arguments_le nested r₁ w₁) h₁
    split
    · exact h₁
    split
    · rename_i value r₂ w₂ h'
      have := length_rest_arguments_le nested r₂ w₂
      exact Nat.lt_of_le_of_lt (Nat.le_trans this (length_le_of_argument h')) h₁
    · rename_i e r₂ w₂ h'
      exact Nat.lt_of_le_of_lt (length_le_of_argument h') h₁
    · rename_i r₂ w₂ h'
      exact Nat.lt_of_le_of_lt (length_le_of_argument h') h₁

/-- Evaluates a unit.  Without arguments (on a blank line, or one with only a comment) its value is
empty. -/
def evalUnit (files : Files) (nested : Evaluation) (r : Reader) (w : World) : Run Text :=
  match arguments nested r w with
  | ⟨.ok [], r, w⟩ => ⟨.ok [], r, w⟩
  | ⟨.ok (command :: args), r, w⟩ =>
    let a := dispatchWith files nested command args w
    ⟨a.outcome, r, a.world⟩
  | ⟨.error e, r, w⟩ => ⟨.error e, r, w⟩
  | ⟨.unfinished, r, w⟩ => ⟨.unfinished, r, w⟩

/-- The reader is left where the arguments end. -/
theorem reader_evalUnit (files : Files) (nested : Evaluation) (r : Reader) (w : World) :
    (evalUnit files nested r w).reader = (arguments nested r w).reader := by
  unfold evalUnit
  split <;> simp_all

theorem length_lt_of_evalUnit {files : Files} {nested : Evaluation} {r r' : Reader}
    {w w' : World} {o : Outcome Text} (hr : r.rest ≠ [])
    (h : evalUnit files nested r w = ⟨o, r', w'⟩) : r'.rest.length < r.rest.length := by
  have hlt := length_rest_arguments_lt nested w hr
  rw [← reader_evalUnit files, h] at hlt
  exact hlt

/-- Evaluates all units to the end.  The value is that of the last one, or `last` if there is
none. -/
def evalBody (files : Files) (nested : Evaluation) (last : Text) (r : Reader) (w : World) :
    Run Text :=
  match h : look r w with
  | ⟨true, r₁, w₁⟩ => ⟨.ok last, r₁, w₁⟩
  | ⟨false, r₁, w₁⟩ =>
    match h' : evalUnit files nested r₁ w₁ with
    | ⟨.ok value, r₂, w₂⟩ =>
      have : r₂.rest.length < r.rest.length := by
        have hr := rest_of_look h
        have hne : r.rest ≠ [] := fun hnil =>
          Bool.false_ne_true ((rest_eq_nil_iff_of_look h).mp hnil)
        rw [← hr] at hne ⊢
        exact length_lt_of_evalUnit hne h'
      evalBody files nested value r₂ w₂
    | ⟨.error e, r₂, w₂⟩ => ⟨.error e, r₂, w₂⟩
    | ⟨.unfinished, r₂, w₂⟩ => ⟨.unfinished, r₂, w₂⟩
termination_by r.rest.length

/-- Evaluates a script with so many levels of nesting allowed. -/
def run (files : Files) : Nat → Evaluation
  | 0 => fun _ r w => ⟨.unfinished, r, w⟩
  | depth + 1 => fun extent r w =>
    match extent with
    | .unit => evalUnit files (run files depth) r w
    | .body => evalBody files (run files depth) [] r w

/-- Evaluates a text as a body. -/
def evalText (files : Files) (depth : Nat) (code : Text) (w : World) : Answer :=
  (run files depth).answer .body (.ofText code) w

/-- Runs the named command. -/
def dispatch (files : Files) (depth : Nat) (command : Text) (args : List Text) (w : World) :
    Answer :=
  dispatchWith files (run files depth) command args w

/-- Evaluates the named script. -/
def load (files : Files) (depth : Nat) (name : Text) (w : World) : Answer :=
  loadScript files (run files depth) name w

end LineScript
