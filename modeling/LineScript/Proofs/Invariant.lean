/-
# Invariants of evaluation

A property of worlds that survives each of the elementary things that evaluation does survives
whole evaluations, however they end.  An `Invariant` is such a property, together with the errors
with which an evaluation may end that starts with the property; `Invariant.sound_run` carries both
through blocks, calls and loaded scripts.

Every error may arise but one: that output could not be written needs a channel that does not take
it, or a function of the host program.
-/
import LineScript.Proofs.Steps

namespace LineScript

/-- A property of worlds that evaluation keeps, and the errors that may arise meanwhile. -/
structure Invariant where
  /-- The property. -/
  holds : World → Prop
  /-- The errors that may end an evaluation. -/
  admits : Error → Prop
  note : ∀ {w} (n : Note), holds w → holds (w.note n)
  put : ∀ {w} (t : Text), holds w → holds (w.emit .script t).2
  set : ∀ {w} (name value : Text), holds w →
    holds { w with scope := w.scope.setVariable name value }
  define : ∀ {w} (name : Text) (p : Procedure), holds w →
    holds { w with scope := w.scope.defineProcedure name p }
  leave : ∀ {w v}, holds w → holds v → holds { v with scope := w.scope }
  admits_put : ∀ {w} (t : Text), holds w → (w.emit .script t).1 = false →
    admits (.outputFailed Console.fullReason)
  admits_host : ∀ {w name f args e}, holds w → w.scope.resolve name = .primitive (.host f) →
    f args = .error e → admits e
  admits_other : ∀ {e}, (∀ reason, e ≠ .outputFailed reason) → admits e

namespace Invariant

/-- The property holds where a run has ended, and the run did not end with an error that may not
arise. -/
structure Sound (I : Invariant) {α : Type} (x : Run α) : Prop where
  holds : I.holds x.world
  admits : ∀ e, x.outcome = .error e → I.admits e

/-- An evaluation keeps the property. -/
def Nested (I : Invariant) (nested : Evaluation) : Prop :=
  ∀ extent r {w}, I.holds w → I.Sound (nested extent r w)

variable {I : Invariant} {α β : Type} {r : Reader} {w : World}

lemma sound_ok (h : I.holds w) (a : α) : I.Sound ⟨.ok a, r, w⟩ :=
  ⟨h, fun _ he => nomatch he⟩

lemma sound_error {e : Error} (h : I.holds w) (he : I.admits e) :
    I.Sound (⟨.error e, r, w⟩ : Run α) :=
  ⟨h, fun _ heq => Outcome.error.inj heq ▸ he⟩

lemma sound_ofExcept {x : Except Error Text} (h : I.holds w)
    (hx : ∀ e, x = .error e → I.admits e) : I.Sound ⟨.ofExcept x, r, w⟩ := by
  cases x with
  | ok v => exact sound_ok h v
  | error e => exact sound_error h (hx e rfl)

lemma Sound.map {x : Run α} (h : I.Sound x) (f : α → β) : I.Sound (x.map f) := by
  obtain ⟨o, r, w⟩ := x
  cases o with
  | ok a => exact sound_ok h.holds (f a)
  | error e => exact sound_error h.holds (h.admits e rfl)
  | unfinished => exact ⟨h.holds, fun _ he => nomatch he⟩

lemma Sound.bind {x : Run α} {f : α → Reader → World → Run β} (h : I.Sound x)
    (hf : ∀ a, x.outcome = .ok a → I.Sound (f a x.reader x.world)) : I.Sound (x.bind f) := by
  obtain ⟨o, r, w⟩ := x
  cases o with
  | ok a => exact hf a rfl
  | error e => exact sound_error h.holds (h.admits e rfl)
  | unfinished => exact ⟨h.holds, fun _ he => nomatch he⟩

/-! ### Reading -/

lemma holds_observe (h : I.holds w) (r : Reader) : I.holds (observe r w).2 := by
  unfold observe
  split
  · exact I.note _ h
  · exact h

lemma holds_pull (h : I.holds w) (r : Reader) : I.holds (pull r w).world :=
  holds_observe h r.next.2

lemma holds_look (h : I.holds w) (r : Reader) : I.holds (look r w).world :=
  holds_observe h r.isExhausted.2

lemma holds_collect (h : I.holds w) (depth : Nat) (r : Reader) :
    I.holds (collect depth r w).world := by
  induction r using Reader.induction_on_rest generalizing depth w with
  | step r ih =>
    have hpull := holds_pull h r
    rw [collect_eq]
    split
    · exact hpull
    · rename_i t ht
      split
      · exact hpull
      · exact ih _ (length_rest_pull_lt ht) hpull _

lemma holds_notes (h : I.holds w) (ns : List Note) : I.holds (w.notes ns) := by
  induction ns generalizing w with
  | nil => exact h
  | cons n ns ih => exact ih (I.note n h)

lemma holds_bind (h : I.holds w) (params args : List Text) :
    I.holds { w with scope := w.scope.bind params args } := by
  unfold Namespace.bind
  induction params.zip args generalizing w with
  | nil => exact h
  | cons p ps ih => exact ih (I.set p.1 p.2 h)

/-! ### Commands -/

lemma sound_putLine (h : I.holds w) (t : Text) (r : Reader) :
    I.Sound (.ofAnswer (putLine t w) r) := by
  have hput := I.put (t ++ newline) h
  have hadmits := I.admits_put (t ++ newline) h
  unfold putLine
  rcases hx : w.emit .script (t ++ newline) with ⟨ok, v⟩
  rw [hx] at hput hadmits
  cases ok with
  | true => exact sound_ok hput []
  | false => exact sound_error hput (hadmits rfl)

/-- An operator fails only because one of its arguments spells no number. -/
lemma eq_notNumber_of_withNumbers {a b : Text} {f : Binary64 → Binary64 → Text} {e : Error}
    (h : withNumbers a b f = .error e) : e = .notNumber a ∨ e = .notNumber b := by
  have hnumber : ∀ {t e}, number t = .error e → e = .notNumber t := by
    intro t e ht
    unfold number at ht
    split at ht
    · exact nomatch ht
    · exact (Except.error.inj ht).symm
  unfold withNumbers at h
  cases ha : number a with
  | error e' =>
    rw [ha] at h
    exact .inl (Except.error.inj h ▸ hnumber ha)
  | ok x =>
    cases hb : number b with
    | error e' =>
      rw [ha, hb] at h
      exact .inr (Except.error.inj h ▸ hnumber hb)
    | ok y =>
      rw [ha, hb] at h
      exact nomatch h

lemma sound_withNumbers (h : I.holds w) (a b : Text) (f : Binary64 → Binary64 → Text)
    (r : Reader) : I.Sound ⟨.ofExcept (withNumbers a b f), r, w⟩ := by
  refine sound_ofExcept h fun e he => I.admits_other fun reason => ?_
  rcases eq_notNumber_of_withNumbers he with rfl | rfl <;> simp

section Commands

variable {files : Files} {nested : Evaluation} (hn : I.Nested nested)
include hn

lemma sound_callProcedure (h : I.holds w) (command : Text) (p : Procedure) (args : List Text)
    (r : Reader) : I.Sound (.ofAnswer (callProcedure nested command p args w) r) := by
  unfold callProcedure
  dsimp only
  split
  · have hbody := hn .body (.ofText p.body) (holds_bind h (parameters p.params) args)
    exact ⟨I.leave h hbody.holds, hbody.admits⟩
  · exact sound_error h (I.admits_other (by simp))

lemma sound_loadScript (h : I.holds w) (name : Text) (r : Reader) :
    I.Sound (.ofAnswer (loadScript files nested name w) r) := by
  have hnotes := holds_notes h (findScript files name w.scope.library).1
  unfold loadScript
  dsimp only
  split
  · exact sound_ok (I.note _ hnotes) []
  · rename_i content _
    have hbody := hn .body (.ofStream content.stream) hnotes
    exact ⟨hbody.holds, hbody.admits⟩

lemma sound_performBuiltin (h : I.holds w) (b : Builtin) (args : List Text) (r : Reader) :
    I.Sound (.ofAnswer (performBuiltin files nested b args w) r) := by
  unfold performBuiltin
  split
  · exact sound_putLine h _ r
  · exact sound_ok (I.set _ _ h) _
  · exact sound_ok (I.define _ _ h) _
  · exact sound_loadScript hn h _ r
  · exact sound_withNumbers h _ _ _ r
  · exact sound_withNumbers h _ _ _ r
  · exact sound_error h (I.admits_other (by simp))

lemma sound_dispatchWith (h : I.holds w) (command : Text) (args : List Text) (r : Reader) :
    I.Sound (.ofAnswer (dispatchWith files nested command args w) r) := by
  unfold dispatchWith
  split
  · exact sound_callProcedure hn (I.note _ h) command _ args r
  · rename_i p hp
    cases p with
    | builtin b => exact sound_performBuiltin hn (I.note _ h) b args r
    | host f =>
      exact sound_ofExcept (I.note _ h) fun e he => I.admits_host h hp he
  · exact sound_error h (I.admits_other (by simp))

/-! ### Units and bodies -/

lemma sound_argument (h : I.holds w) (t : Text) (r : Reader) :
    I.Sound (argument nested t r w) := by
  by_cases hv : ∃ name, t = '$' :: name
  · obtain ⟨name, rfl⟩ := hv
    rw [argument_variable]
    split
    · exact sound_ok h _
    · exact sound_error h (I.admits_other (by simp))
  by_cases hb : t = openBlock
  · subst hb
    have hcollect := holds_collect h 0 r
    rw [argument_openBlock]
    cases hc : (collect 0 r w).closed with
    | true =>
      have hblock := hn .unit (.ofText (collect 0 r w).code) hcollect
      rw [evalBlock_of_closed _ _ _ hc]
      exact ⟨hblock.holds, hblock.admits⟩
    | false =>
      rw [evalBlock_of_unclosed _ _ _ hc]
      exact sound_error hcollect (I.admits_other (by simp))
  · rw [argument_word _ _ _ (fun name ht => hv ⟨name, ht⟩) hb]
    exact sound_ok h t

lemma sound_arguments (h : I.holds w) (r : Reader) : I.Sound (arguments nested r w) := by
  induction r using Reader.induction_on_rest generalizing w with
  | step r ih =>
    have hpull := holds_pull h r
    rw [arguments_eq]
    split
    · exact sound_ok hpull []
    · rename_i t ht
      have hlt := length_rest_pull_lt ht
      split
      · exact ih _ hlt hpull
      split
      · exact sound_ok hpull []
      · have harg := sound_argument hn hpull t (pull r w).reader
        refine harg.bind fun value _ => (ih _ ?_ harg.holds).map _
        exact Nat.lt_of_le_of_lt (length_rest_argument_le ..) hlt

lemma sound_perform (h : I.holds w) (args : List Text) (r : Reader) :
    I.Sound (perform nested files args r w) := by
  cases args with
  | nil => exact sound_ok h []
  | cons command args => exact sound_dispatchWith hn h command args r

lemma sound_evalUnit (h : I.holds w) (r : Reader) : I.Sound (evalUnit files nested r w) := by
  have hargs := sound_arguments hn h r
  rw [evalUnit_eq]
  exact hargs.bind fun args _ => sound_perform hn hargs.holds args _

lemma sound_evalBody (h : I.holds w) (last : Text) (r : Reader) :
    I.Sound (evalBody files nested last r w) := by
  induction r using Reader.induction_on_rest generalizing last w with
  | step r ih =>
    have hlook := holds_look h r
    by_cases hr : r.rest = []
    · rw [evalBody_of_rest_eq_nil _ _ _ _ _ hr]
      exact sound_ok hlook last
    · have hunit : I.Sound (evalUnit files nested (look r w).reader (look r w).world) :=
        sound_evalUnit hn hlook _
      rw [evalBody_of_rest_ne_nil _ _ _ _ _ hr]
      refine hunit.bind fun value _ => ?_
      exact ih _ (length_rest_evalUnit_look_lt _ _ _ hr) hunit.holds value

end Commands

/-- Every evaluation keeps an invariant and ends with no error that it does not admit. -/
theorem sound_run (I : Invariant) (files : Files) (depth : Nat) : I.Nested (run files depth) := by
  induction depth with
  | zero => exact fun _ _ _ h => ⟨h, fun _ he => nomatch he⟩
  | succ depth ih =>
    intro extent r w h
    cases extent with
    | unit => exact sound_evalUnit ih h r
    | body => exact sound_evalBody ih h [] r

end Invariant
end LineScript
