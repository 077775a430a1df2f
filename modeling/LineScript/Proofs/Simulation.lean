/-
# Two evaluations side by side

The same script is evaluated in two worlds.  As long as the two worlds correspond, the runs go the
same way; at some point the first run may be lost: it ends there with an error, or because it was
nested too deeply, while the second one goes on.  A `Simulation` says which readers and worlds
correspond and what remains true once the first run is lost.  It has to be checked only for the
elementary things that evaluation does: taking a token, making a note, writing script output,
looking up a name, binding a name, and leaving a procedure.

`Simulation.related_run` then carries the correspondence through whole evaluations.
-/
import LineScript.Proofs.Growth

namespace LineScript

open Console (Grows)

/-- A correspondence between the worlds of two evaluations of the same script. -/
structure Simulation where
  /-- The two readers stand at the same place of the same script. -/
  reads : Reader → Reader → Prop
  /-- The two worlds correspond. -/
  rel : World → World → Prop
  /-- The first run has ended for the given reason (`none` if it went too deep), leaving the first
  console, and the second run has come to the second console. -/
  lost : Option Error → Console → Console → Prop
  lost_grows : ∀ {stop c d d'}, lost stop c d → Grows d d' → lost stop c d'
  reads_refl : ∀ r, reads r r
  rest_eq : ∀ {r r'}, reads r r' → r.rest = r'.rest
  reads_pull : ∀ {r r' w w'}, reads r r' → rel w w' →
    reads (pull r w).reader (pull r' w').reader ∧ rel (pull r w).world (pull r' w').world
  reads_look : ∀ {r r' w w'}, reads r r' → rel w w' →
    reads (look r w).reader (look r' w').reader ∧ rel (look r w).world (look r' w').world
  rel_note : ∀ {w w'} (n : Note), rel w w' → rel (w.note n) (w'.note n)
  rel_put : ∀ {w w'} (t : Text), rel w w' →
    ((w.emit .script t).1 = (w'.emit .script t).1 ∧
      rel (w.emit .script t).2 (w'.emit .script t).2) ∨
    ((w.emit .script t).1 = false ∧ lost (some (.outputFailed Console.fullReason))
      (w.emit .script t).2.console (w'.emit .script t).2.console)
  rel_value : ∀ {w w'} (name : Text), rel w w' →
    w.scope.values.get? name = w'.scope.values.get? name ∨
    (w.scope.values.get? name = none ∧
      lost (some (.unknownVariable name)) w.console w'.console)
  rel_resolve : ∀ {w w'} (name : Text), rel w w' →
    w.scope.resolve name = w'.scope.resolve name ∨
    (w.scope.resolve name = .unbound ∧
      lost (some (.unknownCommand name)) w.console w'.console)
  rel_library : ∀ {w w'}, rel w w' → w.scope.library = w'.scope.library
  rel_set : ∀ {w w'} (name value : Text), rel w w' →
    rel { w with scope := w.scope.setVariable name value }
      { w' with scope := w'.scope.setVariable name value }
  rel_define : ∀ {w w'} (name : Text) (p : Procedure), rel w w' →
    rel { w with scope := w.scope.defineProcedure name p }
      { w' with scope := w'.scope.defineProcedure name p }
  rel_leave : ∀ {w w' v v'}, rel w w' → rel v v' →
    rel { v with scope := w.scope } { v' with scope := w'.scope }

namespace Simulation

/-! Where the two evaluations use one reader, what reading does to the worlds is to make notes. -/

section Reading

variable (rel : World → World → Prop)
  (hnote : ∀ {w w'} (n : Note), rel w w' → rel (w.note n) (w'.note n))
include hnote

lemma observe_of_note (r : Reader) {w w' : World} (h : rel w w') :
    (observe r w).1 = (observe r w').1 ∧ rel (observe r w).2 (observe r w').2 := by
  unfold observe
  split
  · exact ⟨rfl, hnote _ h⟩
  · exact ⟨rfl, h⟩

lemma pull_of_note {r r' : Reader} {w w' : World} (hr : r = r') (h : rel w w') :
    (pull r w).reader = (pull r' w').reader ∧ rel (pull r w).world (pull r' w').world := by
  subst hr
  exact observe_of_note rel hnote r.next.2 h

lemma look_of_note {r r' : Reader} {w w' : World} (hr : r = r') (h : rel w w') :
    (look r w).reader = (look r' w').reader ∧ rel (look r w).world (look r' w').world := by
  subst hr
  exact observe_of_note rel hnote r.isExhausted.2 h

end Reading

/-- Two runs go the same way, or the first one is lost. -/
inductive Related (S : Simulation) {α : Type} : Run α → Run α → Prop
  | same {o : Outcome α} {r r' : Reader} {w w' : World} :
      S.reads r r' → S.rel w w' → Related S ⟨o, r, w⟩ ⟨o, r', w'⟩
  | error {e : Error} {r : Reader} {w : World} {x : Run α} :
      S.lost (some e) w.console x.world.console → Related S ⟨.error e, r, w⟩ x
  | unfinished {r : Reader} {w : World} {x : Run α} :
      S.lost none w.console x.world.console → Related S ⟨.unfinished, r, w⟩ x

/-- Two evaluations go the same way in all corresponding worlds. -/
def Nested (S : Simulation) (nested nested' : Evaluation) : Prop :=
  ∀ extent {r r' w w'}, S.reads r r' → S.rel w w' →
    S.Related (nested extent r w) (nested' extent r' w')

variable {S : Simulation} {α β : Type} {r r' : Reader} {w w' : World}

lemma Related.map {x x' : Run α} (h : S.Related x x') (f : α → β) :
    S.Related (x.map f) (x'.map f) := by
  cases h with
  | same hr hw => exact .same hr hw
  | error h => exact .error h
  | unfinished h => exact .unfinished h

/-- The correspondence goes on behind a part, provided that the second run only adds to the
console there. -/
lemma Related.bind {x x' : Run α} {f f' : α → Reader → World → Run β} (h : S.Related x x')
    (hf : ∀ a r' w', x.outcome = .ok a → S.reads x.reader r' → S.rel x.world w' →
      S.Related (f a x.reader x.world) (f' a r' w'))
    (hadds : ∀ a r w', Grows w'.console (f' a r w').world.console) :
    S.Related (x.bind f) (x'.bind f') := by
  cases h with
  | @same o r r' w w' hr hw =>
    cases o with
    | ok a => exact hf a r' w' rfl hr hw
    | error e => exact .same hr hw
    | unfinished => exact .same hr hw
  | error h =>
    exact .error (S.lost_grows h (Run.grows_bind (Grows.refl _) fun a _ => hadds a _ _))
  | unfinished h =>
    exact .unfinished (S.lost_grows h (Run.grows_bind (Grows.refl _) fun a _ => hadds a _ _))

/-- Of a run that has a reader of its own, only the answer matters. -/
lemma Related.ofAnswer {x x' : Run Text} (h : S.Related x x') (hr : S.reads r r') :
    S.Related (.ofAnswer ⟨x.outcome, x.world⟩ r) (.ofAnswer ⟨x'.outcome, x'.world⟩ r') := by
  cases h with
  | same _ hw => exact .same hr hw
  | error h => exact .error h
  | unfinished h => exact .unfinished h

/-- A call is left: each run takes back the names of its caller. -/
lemma Related.leave {x x' : Run α} (h : S.Related x x') (hw : S.rel w w') :
    S.Related ⟨x.outcome, x.reader, { x.world with scope := w.scope }⟩
      ⟨x'.outcome, x'.reader, { x'.world with scope := w'.scope }⟩ := by
  cases h with
  | same hr hv => exact .same hr (S.rel_leave hw hv)
  | error h => exact .error h
  | unfinished h => exact .unfinished h

/-! ### Reading -/

lemma token_pull_eq (h : S.reads r r') : (pull r' w').token = (pull r w).token := by
  rw [token_pull, token_pull, S.rest_eq h]

/-- What is collected of a block does not depend on the world. -/
lemma rel_collect (depth : Nat) (hr : S.reads r r') (hw : S.rel w w') :
    ∃ s v, S.reads (collect depth r w).reader s ∧ S.rel (collect depth r w).world v ∧
      collect depth r' w' = { collect depth r w with reader := s, world := v } := by
  induction r using Reader.induction_on_rest generalizing depth r' w w' with
  | step r ih =>
    obtain ⟨hr₁, hw₁⟩ := S.reads_pull hr hw
    rw [collect_eq r w, collect_eq r' w', token_pull_eq (w := w) hr]
    cases ht : (pull r w).token with
    | none => exact ⟨_, _, hr₁, hw₁, rfl⟩
    | some t =>
      dsimp only
      split
      · exact ⟨_, _, hr₁, hw₁, rfl⟩
      · obtain ⟨s, v, hs, hv, hc⟩ := ih _ (length_rest_pull_lt ht) (deeper depth t) hr₁ hw₁
        rw [hc]
        exact ⟨s, v, hs, hv, rfl⟩

lemma rel_notes (h : S.rel w w') (ns : List Note) : S.rel (w.notes ns) (w'.notes ns) := by
  induction ns generalizing w w' with
  | nil => exact h
  | cons n ns ih => exact ih (S.rel_note n h)

lemma rel_bind (h : S.rel w w') (params args : List Text) :
    S.rel { w with scope := w.scope.bind params args }
      { w' with scope := w'.scope.bind params args } := by
  unfold Namespace.bind
  induction params.zip args generalizing w w' with
  | nil => exact h
  | cons p ps ih => exact ih (S.rel_set p.1 p.2 h)

/-! ### Commands -/

section Commands

variable {files : Files} {nested nested' : Evaluation}
  (hn : S.Nested nested nested') (hadds : nested'.OnlyAdds)
include hn

lemma related_callProcedure (command : Text) (p : Procedure) (args : List Text)
    (hr : S.reads r r') (h : S.rel w w') :
    S.Related (.ofAnswer (callProcedure nested command p args w) r)
      (.ofAnswer (callProcedure nested' command p args w') r') := by
  unfold callProcedure
  dsimp only
  split
  · exact ((hn .body (S.reads_refl _) (rel_bind h _ args)).leave h).ofAnswer hr
  · exact .same hr h

lemma related_loadScript (name : Text) (hr : S.reads r r') (h : S.rel w w') :
    S.Related (.ofAnswer (loadScript files nested name w) r)
      (.ofAnswer (loadScript files nested' name w') r') := by
  unfold loadScript
  rw [S.rel_library h]
  dsimp only
  split
  · exact .same hr (S.rel_note _ (rel_notes h _))
  · exact (hn .body (S.reads_refl _) (rel_notes h _)).ofAnswer hr

omit hn in
lemma related_putLine (t : Text) (hr : S.reads r r') (h : S.rel w w') :
    S.Related (.ofAnswer (putLine t w) r) (.ofAnswer (putLine t w') r') := by
  have hput := S.rel_put (t ++ newline) h
  unfold putLine
  rcases hx : w.emit .script (t ++ newline) with ⟨ok, v⟩
  rcases hx' : w'.emit .script (t ++ newline) with ⟨ok', v'⟩
  rw [hx, hx'] at hput
  rcases hput with ⟨hok, hrel⟩ | ⟨hok, hlost⟩
  · obtain rfl : ok = ok' := hok
    cases ok <;> exact .same hr hrel
  · obtain rfl : ok = false := hok
    cases ok' <;> exact .error hlost

lemma related_performBuiltin (b : Builtin) (args : List Text) (hr : S.reads r r')
    (h : S.rel w w') :
    S.Related (.ofAnswer (performBuiltin files nested b args w) r)
      (.ofAnswer (performBuiltin files nested' b args w') r') := by
  unfold performBuiltin
  split
  · exact related_putLine _ hr h
  · exact .same hr (S.rel_set _ _ h)
  · exact .same hr (S.rel_define _ _ h)
  · exact related_loadScript hn _ hr h
  · exact .same hr h
  · exact .same hr h
  · exact .same hr h

include hadds

lemma related_dispatchWith (command : Text) (args : List Text) (hr : S.reads r r')
    (h : S.rel w w') :
    S.Related (.ofAnswer (dispatchWith files nested command args w) r)
      (.ofAnswer (dispatchWith files nested' command args w') r') := by
  rcases S.rel_resolve command h with hres | ⟨hres, hlost⟩
  · unfold dispatchWith
    rw [← hres]
    split
    · exact related_callProcedure hn command _ args hr (S.rel_note _ h)
    · rename_i p _
      cases p with
      | builtin b => exact related_performBuiltin hn b args hr (S.rel_note _ h)
      | host f => exact .same hr (S.rel_note _ h)
    · exact .same hr h
  · -- only the first run does not know the command
    have hfirst : dispatchWith files nested command args w =
        ⟨.error (.unknownCommand command), w⟩ := by
      simp only [dispatchWith, hres]
    rw [hfirst]
    exact .error (S.lost_grows hlost (grows_dispatchWith hadds command args w'))

/-! ### Units and bodies -/

omit hadds in
lemma related_argument (t : Text) (hr : S.reads r r') (h : S.rel w w') :
    S.Related (argument nested t r w) (argument nested' t r' w') := by
  by_cases hv : ∃ name, t = '$' :: name
  · obtain ⟨name, rfl⟩ := hv
    rw [argument_variable, argument_variable]
    rcases S.rel_value name h with hval | ⟨hval, hlost⟩
    · rw [← hval]
      split <;> exact .same hr h
    · rw [hval]
      refine .error (S.lost_grows hlost ?_)
      split <;> exact Grows.refl _
  by_cases hb : t = openBlock
  · subst hb
    obtain ⟨s, v, hs, hrel, hc⟩ := rel_collect 0 hr h
    rw [argument_openBlock, argument_openBlock]
    unfold evalBlock
    rw [hc]
    dsimp only
    split
    · exact (hn .unit (S.reads_refl _) hrel).ofAnswer hs
    · exact .same hs hrel
  · have hword : ∀ name, t ≠ '$' :: name := fun name ht => hv ⟨name, ht⟩
    rw [argument_word _ _ _ hword hb, argument_word _ _ _ hword hb]
    exact .same hr h

lemma related_arguments (hr : S.reads r r') (h : S.rel w w') :
    S.Related (arguments nested r w) (arguments nested' r' w') := by
  induction r using Reader.induction_on_rest generalizing r' w w' with
  | step r ih =>
    obtain ⟨hr₁, hw₁⟩ := S.reads_pull hr h
    rw [arguments_eq r w, arguments_eq r' w', token_pull_eq (w := w) hr]
    cases ht : (pull r w).token with
    | none => exact .same hr₁ hw₁
    | some t =>
      have hlt := length_rest_pull_lt ht
      dsimp only
      split
      · exact ih _ hlt hr₁ hw₁
      split
      · exact .same hr₁ hw₁
      · refine (related_argument hn t hr₁ hw₁).bind (fun value s v _ hs hv => ?_) ?_
        · exact (ih _ (Nat.lt_of_le_of_lt (length_rest_argument_le ..) hlt) hs hv).map _
        · exact fun value r₂ w₂ => grows_arguments hadds r₂ w₂

lemma related_evalUnit (hr : S.reads r r') (h : S.rel w w') :
    S.Related (evalUnit files nested r w) (evalUnit files nested' r' w') := by
  rw [evalUnit_eq, evalUnit_eq]
  refine (related_arguments hn hadds hr h).bind (fun args s v _ hs hv => ?_)
    fun args r₂ w₂ => grows_perform hadds args r₂ w₂
  cases args with
  | nil => exact .same hs hv
  | cons command args => exact related_dispatchWith hn hadds command args hs hv

lemma related_evalBody (last : Text) (hr : S.reads r r') (h : S.rel w w') :
    S.Related (evalBody files nested last r w) (evalBody files nested' last r' w') := by
  induction r using Reader.induction_on_rest generalizing last r' w w' with
  | step r ih =>
    obtain ⟨hr₁, hw₁⟩ := S.reads_look hr h
    have hrest := S.rest_eq hr
    by_cases hnil : r.rest = []
    · rw [evalBody_of_rest_eq_nil _ _ _ _ _ hnil,
        evalBody_of_rest_eq_nil _ _ _ _ _ (hrest ▸ hnil)]
      exact .same hr₁ hw₁
    · rw [evalBody_of_rest_ne_nil _ _ _ _ _ hnil,
        evalBody_of_rest_ne_nil _ _ _ _ _ (hrest ▸ hnil)]
      refine (related_evalUnit hn hadds hr₁ hw₁).bind (fun value s v _ hs hv => ?_)
        fun value r₂ w₂ => grows_evalBody hadds value r₂ w₂
      exact ih _ (length_rest_evalUnit_look_lt _ _ _ hnil) value hs hv

end Commands

/-- Evaluations correspond in corresponding worlds.  The second one may be allowed more levels of
nesting if a first run that goes too deep counts as lost. -/
theorem related_run (S : Simulation) (files : Files) {depth depth' : Nat} (hle : depth ≤ depth')
    (hdeep : depth = depth' ∨ ∀ {w w'}, S.rel w w' → S.lost none w.console w'.console) :
    S.Nested (run files depth) (run files depth') := by
  induction depth generalizing depth' with
  | zero =>
    -- the first run goes no further, so it has to count as lost if the second one does
    intro extent r r' w w' hr h
    rcases hdeep with rfl | hdeep
    · exact .same hr h
    · exact .unfinished (S.lost_grows (hdeep h) (grows_run files depth' extent r' w'))
  | succ depth ih =>
    obtain ⟨depth', rfl⟩ : ∃ d, depth' = d + 1 := ⟨depth' - 1, by omega⟩
    have hn : S.Nested (run files depth) (run files depth') :=
      ih (by omega) (hdeep.imp_left (by omega))
    intro extent r r' w w' hr h
    cases extent with
    | unit => exact related_evalUnit hn (grows_run files depth') hr h
    | body => exact related_evalBody hn (grows_run files depth') [] hr h

end Simulation
end LineScript
