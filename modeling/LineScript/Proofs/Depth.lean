/-
# Levels of nesting

An evaluation that ends does so in the same way with any larger number of levels allowed.  So it
does not matter for what a script does how many levels there are, as long as they are enough.
-/
import LineScript.Proofs.Simulation

namespace LineScript

/-- The same script in the same world, with more levels of nesting for the second run: the first
run is lost when it goes too deep. -/
def Simulation.moreLevels : Simulation where
  reads := Eq
  rel := Eq
  lost stop _ _ := stop = none
  lost_grows h _ := h
  reads_refl _ := rfl
  rest_eq h := congrArg Reader.rest h
  reads_pull := by rintro r _ w _ rfl rfl; exact ⟨rfl, rfl⟩
  reads_look := by rintro r _ w _ rfl rfl; exact ⟨rfl, rfl⟩
  rel_note n h := congrArg (·.note n) h
  rel_put t h := .inl ⟨congrArg (fun w => (w.emit .script t).1) h,
    congrArg (fun w => (w.emit .script t).2) h⟩
  rel_value name h := .inl (congrArg (·.scope.values.get? name) h)
  rel_resolve name h := .inl (congrArg (·.scope.resolve name) h)
  rel_library h := congrArg (·.scope.library) h
  rel_set name value h := by rw [h]
  rel_define name p h := by rw [h]
  rel_leave h h' := by rw [h, h']

lemma eq_of_related_moreLevels {α : Type} {x x' : Run α} (h : Simulation.moreLevels.Related x x')
    (hx : x.outcome ≠ .unfinished) : x' = x := by
  cases h with
  | same hr hw =>
    obtain rfl := hr
    obtain rfl := hw
    rfl
  | error h => exact absurd h (by simp [Simulation.moreLevels])
  | unfinished => exact absurd rfl hx

lemma nested_moreLevels (files : Files) {depth depth' : Nat} (h : depth ≤ depth') :
    Simulation.moreLevels.Nested (run files depth) (run files depth') :=
  Simulation.moreLevels.related_run files h (.inr fun _ => rfl)

/-- An evaluation that ends does so in the same way with more levels. -/
theorem run_of_le (files : Files) {depth depth' : Nat} (hle : depth ≤ depth') {extent : Extent}
    {r : Reader} {w : World} (h : (run files depth extent r w).outcome ≠ .unfinished) :
    run files depth' extent r w = run files depth extent r w :=
  eq_of_related_moreLevels (nested_moreLevels files hle extent rfl rfl) h

/-- A command that ends does so in the same way with more levels. -/
theorem dispatch_of_le (files : Files) {depth depth' : Nat} (hle : depth ≤ depth')
    {command : Text} {args : List Text} {w : World}
    (h : (dispatch files depth command args w).outcome ≠ .unfinished) :
    dispatch files depth' command args w = dispatch files depth command args w := by
  have hrel : Simulation.moreLevels.Related
      (.ofAnswer (dispatch files depth command args w) (.ofText []))
      (.ofAnswer (dispatch files depth' command args w) (.ofText [])) :=
    Simulation.related_dispatchWith (nested_moreLevels files hle) (grows_run files depth')
      command args rfl rfl
  have heq := eq_of_related_moreLevels hrel h
  simp only [Run.ofAnswer, Run.mk.injEq, true_and] at heq
  cases hd : dispatch files depth' command args w
  cases hd' : dispatch files depth command args w
  rw [hd, hd'] at heq
  exact (Answer.mk.injEq ..).mpr heq

end LineScript
