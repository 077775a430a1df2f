/-
# The evaluator, one step at a time

The functions that read a unit token by token are recursions on what is left of a reader.  This
file gives each of them one equation in which the next token has been taken, and in which the
results of the parts are put together by `Run.bind`: go on with the value, or end as the part
ended.  Facts about whole evaluations are proved from these equations by induction on what is left
of the reader.
-/
import Mathlib.Tactic.Common
import LineScript.Eval.Run

namespace LineScript

namespace Run

variable {α β : Type}

/-- Goes on with the value of a run, where the run left the reader and the world. -/
def bind (x : Run α) (f : α → Reader → World → Run β) : Run β :=
  match x with
  | ⟨.ok a, r, w⟩ => f a r w
  | ⟨.error e, r, w⟩ => ⟨.error e, r, w⟩
  | ⟨.unfinished, r, w⟩ => ⟨.unfinished, r, w⟩

/-- The result of a command as a run that leaves the reader alone. -/
def ofAnswer (a : Answer) (r : Reader) : Run Text :=
  ⟨a.outcome, r, a.world⟩

@[simp] lemma bind_ok (a : α) (r : Reader) (w : World) (f : α → Reader → World → Run β) :
    bind ⟨.ok a, r, w⟩ f = f a r w := rfl

@[simp] lemma bind_error (e : Error) (r : Reader) (w : World)
    (f : α → Reader → World → Run β) : bind ⟨.error e, r, w⟩ f = ⟨.error e, r, w⟩ := rfl

@[simp] lemma bind_unfinished (r : Reader) (w : World) (f : α → Reader → World → Run β) :
    bind ⟨.unfinished, r, w⟩ f = ⟨.unfinished, r, w⟩ := rfl

@[simp] lemma map_mk (f : α → β) (o : Outcome α) (r : Reader) (w : World) :
    map f ⟨o, r, w⟩ = ⟨o.map f, r, w⟩ := rfl

lemma map_bind {γ : Type} (x : Run α) (f : α → β) (g : β → Reader → World → Run γ) :
    (x.map f).bind g = x.bind fun a => g (f a) := by
  obtain ⟨o, r, w⟩ := x
  cases o <;> rfl

lemma bind_bind {γ : Type} (x : Run α) (f : α → Reader → World → Run β)
    (g : β → Reader → World → Run γ) :
    (x.bind f).bind g = x.bind fun a r w => (f a r w).bind g := by
  obtain ⟨o, r, w⟩ := x
  cases o <;> rfl

/-- A run that goes on with a value ends with one only if there is a value to go on with. -/
lemma ok_of_bind {x : Run α} {f : α → Reader → World → Run β} {b : β}
    (h : (x.bind f).outcome = .ok b) :
    ∃ a, x.outcome = .ok a ∧ x.bind f = f a x.reader x.world := by
  obtain ⟨o, r, w⟩ := x
  cases o with
  | ok a => exact ⟨a, rfl, rfl⟩
  | error e => exact nomatch h
  | unfinished => exact nomatch h

lemma ok_of_map {x : Run α} {f : α → β} {b : β} (h : (x.map f).outcome = .ok b) :
    ∃ a, x.outcome = .ok a := by
  obtain ⟨o, r, w⟩ := x
  cases o with
  | ok a => exact ⟨a, rfl⟩
  | error e => exact nomatch h
  | unfinished => exact nomatch h

@[simp] lemma outcome_ofAnswer (a : Answer) (r : Reader) : (ofAnswer a r).outcome = a.outcome :=
  rfl

@[simp] lemma reader_ofAnswer (a : Answer) (r : Reader) : (ofAnswer a r).reader = r := rfl

@[simp] lemma world_ofAnswer (a : Answer) (r : Reader) : (ofAnswer a r).world = a.world := rfl

end Run

/-- Goes on with the value of an answer, in the world it left. -/
def Answer.bind (a : Answer) (f : Text → World → Answer) : Answer :=
  match a with
  | ⟨.ok v, w⟩ => f v w
  | a => a

lemma Answer.bind_bind (a : Answer) (f g : Text → World → Answer) :
    (a.bind f).bind g = a.bind fun v w => (f v w).bind g := by
  rcases a with ⟨v | e | -, w⟩ <;> rfl

lemma Answer.ended_of_bind {a : Answer} {f : Text → World → Answer}
    (h : (a.bind f).outcome ≠ .unfinished) : a.outcome ≠ .unfinished := by
  rcases a with ⟨v | e | -, w⟩
  · exact nofun
  · exact nofun
  · exact h

lemma Answer.bind_congr_of_ended {a : Answer} {f g : Text → World → Answer}
    (h : (a.bind f).outcome ≠ .unfinished)
    (hfg : ∀ v w, (f v w).outcome ≠ .unfinished → g v w = f v w) : a.bind g = a.bind f := by
  rcases a with ⟨v | e | -, w⟩
  · exact hfg v w h
  · rfl
  · rfl

/-- Induction on what is left of a reader. -/
theorem Reader.induction_on_rest {motive : Reader → Prop}
    (step : ∀ r, (∀ r' : Reader, r'.rest.length < r.rest.length → motive r') → motive r)
    (r : Reader) : motive r := by
  induction hn : r.rest.length using Nat.strongRecOn generalizing r with
  | ind n ih =>
    subst hn
    exact step r fun r' hr' => ih _ hr' r' rfl

/-! ### Tokens -/

variable (r : Reader) (w : World)

lemma length_rest_pull_lt {r : Reader} {w : World} {t : Text} (h : (pull r w).token = some t) :
    (pull r w).reader.rest.length < r.rest.length := by
  rw [rest_pull]
  exact length_rest_lex_lt h

/-- A reader whose input does not fail leaves the world alone. -/
lemma pull_of_fault_eq_none {r : Reader} (h : r.fault = none) :
    pull r w = ⟨(lex r.rest).token, r.next.2, w⟩ := by
  have hnext : r.next.2.fault = none := h
  unfold pull
  dsimp only
  rw [observe_of_fault_eq_none w hnext]
  rfl

lemma look_of_fault_eq_none {r : Reader} (h : r.fault = none) :
    look r w = ⟨r.rest.isEmpty, r.isExhausted.2, w⟩ := by
  have hlook : r.isExhausted.2.fault = none := h
  unfold look
  dsimp only
  rw [observe_of_fault_eq_none w hlook]
  rfl

/-- Of a reader whose input does not fail, only the token to come and what follows it matter. -/
lemma pull_congr_of_lex {r r' : Reader} (hf : r.fault = none) (hf' : r'.fault = none)
    (h : lex r.rest = lex r'.rest) : pull r w = pull r' w := by
  rw [pull_of_fault_eq_none w hf, pull_of_fault_eq_none w hf']
  simp only [Reader.next, h, hf, hf']

/-- Part of a line is under way behind every token but a newline. -/
lemma midLine_pull : (pull r w).reader.midLine = (lex r.rest).token.any (· ≠ newline) := by
  unfold pull observe
  dsimp only
  split <;> rfl

/-- Of a line under way the rest is discarded, with its newline. -/
lemma rest_skipLine_of_midLine {r : Reader} (h : r.midLine = true) :
    r.skipLine.rest = (skipComment r.rest).tail := by
  rw [Reader.skipLine, if_pos h]

lemma fault_skipLine : r.skipLine.fault = r.fault := by
  unfold Reader.skipLine
  split <;> rfl

/-! ### Blocks -/

lemma collect_eq (depth : Nat) :
    collect depth r w =
      match (pull r w).token with
      | none => ⟨false, [], (pull r w).reader, (pull r w).world⟩
      | some t =>
        if t = closeBlock ∧ depth = 0 then ⟨true, [], (pull r w).reader, (pull r w).world⟩
        else
          let c := collect (deeper depth t) (pull r w).reader (pull r w).world
          { c with code := t ++ ' ' :: c.code } := by
  rw [collect]
  split <;> rename_i h <;> simp only [h]

/-! ### Arguments -/

variable (nested : Evaluation)

lemma arguments_eq :
    arguments nested r w =
      match (pull r w).token with
      | none => ⟨.ok [], (pull r w).reader, (pull r w).world⟩
      | some t =>
        if t = [] then arguments nested (pull r w).reader (pull r w).world
        else if t = newline then ⟨.ok [], (pull r w).reader, (pull r w).world⟩
        else
          (argument nested t (pull r w).reader (pull r w).world).bind fun value r₂ w₂ =>
            (arguments nested r₂ w₂).map (value :: ·) := by
  rw [arguments]
  split
  · rename_i h
    simp only [h]
  · rename_i t r₁ w₁ h
    simp only [h]
    split
    · rfl
    split
    · rfl
    split <;> rename_i h' <;> simp only [h', Run.bind]

/-- A unit ends at a newline, and where no token is left. -/
lemma arguments_of_end (h : (pull r w).token = none ∨ (pull r w).token = some newline) :
    arguments nested r w = ⟨.ok [], (pull r w).reader, (pull r w).world⟩ := by
  rw [arguments_eq]
  rcases h with h | h
  · rw [h]
  · rw [h]
    exact (if_neg (by decide)).trans (if_pos rfl)

lemma arguments_of_empty (h : (pull r w).token = some []) :
    arguments nested r w = arguments nested (pull r w).reader (pull r w).world := by
  rw [arguments_eq, h]
  exact if_pos rfl

/-- A token that is a word or a bracket stands for one argument, before those that follow. -/
lemma arguments_of_token {t : Text} (h : (pull r w).token = some t) (hne : t ≠ [])
    (hnl : t ≠ newline) :
    arguments nested r w =
      (argument nested t (pull r w).reader (pull r w).world).bind fun value r₂ w₂ =>
        (arguments nested r₂ w₂).map (value :: ·) := by
  rw [arguments_eq, h]
  simp only [hne, hnl, if_false]

lemma arguments_congr_of_lex {r r' : Reader} (hf : r.fault = none) (hf' : r'.fault = none)
    (h : lex r.rest = lex r'.rest) : arguments nested r w = arguments nested r' w := by
  rw [arguments_eq r, arguments_eq r', pull_congr_of_lex w hf hf' h]

lemma arguments_congr_of_rest {r r' : Reader} (hf : r.fault = none) (hf' : r'.fault = none)
    (h : r.rest = r'.rest) : arguments nested r w = arguments nested r' w :=
  arguments_congr_of_lex w nested hf hf' (congrArg lex h)

lemma argument_openBlock : argument nested openBlock r w = evalBlock nested r w := by
  simp [argument, openBlock]

lemma argument_variable (name : Text) :
    argument nested ('$' :: name) r w =
      match w.scope.values.get? name with
      | some value => ⟨.ok value, r, w⟩
      | none => ⟨.error (.unknownVariable name), r, w⟩ := rfl

lemma argument_word {t : Text} (hv : ∀ name, t ≠ '$' :: name) (hb : t ≠ openBlock) :
    argument nested t r w = ⟨.ok t, r, w⟩ := by
  unfold argument
  split
  · exact absurd rfl (hv _)
  · simp [hb]

lemma evalBlock_of_closed (h : (collect 0 r w).closed = true) :
    evalBlock nested r w =
      .ofAnswer (nested.answer .unit (.ofText (collect 0 r w).code) (collect 0 r w).world)
        (collect 0 r w).reader := by
  simp [evalBlock, Run.ofAnswer, h]

lemma evalBlock_of_unclosed (h : (collect 0 r w).closed = false) :
    evalBlock nested r w =
      ⟨.error (.unclosedBlock (collect 0 r w).code), (collect 0 r w).reader,
        (collect 0 r w).world⟩ := by
  simp [evalBlock, h]

/-! ### Units and bodies -/

variable (files : Files)

/-- Runs the command that a list of arguments makes up.  Without arguments there is none, and the
value is empty. -/
def perform (args : List Text) (r : Reader) (w : World) : Run Text :=
  match args with
  | [] => ⟨.ok [], r, w⟩
  | command :: args => .ofAnswer (dispatchWith files nested command args w) r

lemma reader_perform (args : List Text) : (perform nested files args r w).reader = r := by
  cases args <;> rfl

lemma evalUnit_eq :
    evalUnit files nested r w = (arguments nested r w).bind (perform nested files) := by
  unfold evalUnit
  split <;> rename_i h <;> rw [h] <;> rfl

lemma length_rest_evalUnit_look_lt {r : Reader} (h : r.rest ≠ []) :
    (evalUnit files nested (look r w).reader (look r w).world).reader.rest.length
      < r.rest.length := by
  have hlook : (look r w).reader.rest = r.rest := rest_look r w
  have hlt := length_rest_arguments_lt nested (look r w).world (hlook.symm ▸ h)
  rwa [hlook, ← reader_evalUnit files] at hlt

lemma evalBody_of_rest_eq_nil (last : Text) (h : r.rest = []) :
    evalBody files nested last r w = ⟨.ok last, (look r w).reader, (look r w).world⟩ := by
  rw [evalBody]
  split
  · rename_i hl
    rw [hl]
  · rename_i hl
    exact absurd ((rest_eq_nil_iff_of_look hl).mp h) Bool.false_ne_true

lemma evalBody_of_rest_ne_nil (last : Text) (h : r.rest ≠ []) :
    evalBody files nested last r w =
      (evalUnit files nested (look r w).reader (look r w).world).bind
        (evalBody files nested) := by
  rw [evalBody]
  split
  · rename_i hl
    exact absurd ((rest_eq_nil_iff_of_look hl).mpr rfl) h
  · rename_i r₁ w₁ hl
    have hr : (look r w).reader = r₁ := by rw [hl]
    have hw : (look r w).world = w₁ := by rw [hl]
    rw [hr, hw]
    split <;> rename_i hu <;> simp only [hu, Run.bind]

end LineScript
