/-
# Procedure calls

A call runs in a copy of the namespace.  Whatever it does there, the caller's names are as before;
all that stays is what it has written.  Since evaluation does not depend on what was written before,
a script behind a call does what it does alone, with the output of the call in front of its own
(`procedure_call_leaves_only_output`).

The unit of such a call has no blocks, whose evaluation could bind names: `UnitTree.arguments?` are
the arguments of a unit without blocks.
-/
import LineScript.Proofs.Lines
import LineScript.Proofs.Output
import LineScript.Proofs.Tree

namespace LineScript

/-! ### Units without blocks -/

namespace UnitTree

/-- The arguments of a unit in which there are only words, literals and variables with a value. -/
def arguments? (n : Namespace) : UnitTree → Option (List Text)
  | done => some []
  | word t next => (next.arguments? n).map (t :: ·)
  | value name next => (n.values.get? name).bind fun v => (next.arguments? n).map (v :: ·)
  | block _ _ => none
  | unclosed _ => none

/-- To walk over such a unit is to run its command. -/
lemma evalBy_of_arguments? (calls : Calls) (inside : UnitTree → World → Answer) {tree : UnitTree}
    {w : World} {args : List Text} (h : tree.arguments? w.scope = some args) (before : List Text) :
    tree.evalBy calls inside before w = call calls (before ++ args) w := by
  induction tree generalizing args before with
  | done =>
    obtain rfl := Option.some.inj h
    rw [evalBy, List.append_nil]
  | word t next ih =>
    obtain ⟨args, hargs, rfl⟩ := Option.map_eq_some_iff.mp h
    rw [evalBy, ih hargs, List.append_assoc]
    rfl
  | value name next ih =>
    obtain ⟨v, hv, hnext⟩ := Option.bind_eq_some_iff.mp h
    obtain ⟨args, hargs, rfl⟩ := Option.map_eq_some_iff.mp hnext
    rw [evalBy, hv]
    dsimp only
    rw [ih hargs, List.append_assoc]
    rfl
  | block inner next => simp [arguments?] at h
  | unclosed code => simp [arguments?] at h

/-- In a list of tokens, such a unit goes on behind each token that is neither a newline nor a
bracket that opens a block; the latter cannot come. -/
lemma arguments?_cons {n : Namespace} {t : Text} {ts args : List Text} (hnl : t ≠ newline)
    (h : (ofTokens (t :: ts)).arguments? n = some args) :
    t ≠ openBlock ∧ ∃ more, (ofTokens ts).arguments? n = some more := by
  by_cases hb : t = openBlock
  · subst hb
    cases hs : splitBlock 0 ts with
    | none =>
      rw [ofTokens_of_unmatched hs] at h
      simp [arguments?] at h
    | some split =>
      rw [ofTokens_of_split hs] at h
      simp [arguments?] at h
  refine ⟨hb, ?_⟩
  by_cases hne : t = []
  · rw [hne, ofTokens_empty] at h
    exact ⟨args, h⟩
  by_cases hv : ∃ name, t = '$' :: name
  · obtain ⟨name, rfl⟩ := hv
    rw [ofTokens_value] at h
    obtain ⟨v, -, hnext⟩ := Option.bind_eq_some_iff.mp h
    obtain ⟨more, hmore, -⟩ := Option.map_eq_some_iff.mp hnext
    exact ⟨more, hmore⟩
  · rw [ofTokens_word hne hnl hb fun name ht => hv ⟨name, ht⟩] at h
    obtain ⟨more, hmore, -⟩ := Option.map_eq_some_iff.mp h
    exact ⟨more, hmore⟩

lemma blocksPlain_of_arguments? {n : Namespace} {ts args : List Text}
    (h : (ofTokens ts).arguments? n = some args) : BlocksPlain (unitTokens 0 ts) := by
  induction ts generalizing args with
  | nil => trivial
  | cons t ts ih =>
    by_cases hnl : t = newline
    · rw [hnl]
      trivial
    · obtain ⟨hb, more, hmore⟩ := arguments?_cons hnl h
      rw [unitTokens_cons_of_ne hnl hb]
      exact ⟨fun ht => absurd ht hb, ih hmore⟩

lemma foldl_deeper_of_arguments? {n : Namespace} {ts args : List Text}
    (h : (ofTokens ts).arguments? n = some args) (hnl : newline ∉ ts) :
    ts.foldl deeper 0 = 0 := by
  induction ts generalizing args with
  | nil => rfl
  | cons t ts ih =>
    obtain ⟨ht, hts⟩ := not_or.mp fun hor => hnl (List.mem_cons.mpr hor)
    obtain ⟨hb, more, hmore⟩ := arguments?_cons (Ne.symm ht) h
    rw [List.foldl_cons, deeper_zero hb]
    exact ih hmore hts

end UnitTree

/-- A unit without blocks comes to the same as its command. -/
lemma agrees_dispatch (files : Files) (depth : Nat) (r : Reader) (w : World) {command : Text}
    {args : List Text} (h : (unitTree r.rest).arguments? w.scope = some (command :: args)) :
    Agrees r (run files (depth + 1) .unit r w) (dispatch files depth command args w) := by
  have hplain : BlocksPlain (firstUnit r.rest) := by
    rw [unitTree, firstUnit, UnitTree.ofTokens_unitTokens] at h
    exact UnitTree.blocksPlain_of_arguments? h
  have hwalk : (unitTree r.rest).within files (depth + 1) w = dispatch files depth command args w :=
    UnitTree.evalBy_of_arguments? _ _ h []
  rw [← hwalk]
  exact agrees_within files (depth + 1) r w hplain

/-! ### The names of the caller -/

lemma scope_dispatchWith_of_procedure (files : Files) (nested : Evaluation) {command : Text}
    {p : Procedure} {w : World} (hp : w.scope.resolve command = .procedure p) (args : List Text) :
    (dispatchWith files nested command args w).world.scope = w.scope := by
  unfold dispatchWith
  rw [hp]
  dsimp only
  unfold callProcedure
  dsimp only
  split <;> rfl

/-- A unit that calls a procedure leaves the names as they are. -/
lemma scope_run_of_procedure (files : Files) (depth : Nat) (r : Reader) {w : World}
    {command : Text} {args : List Text} {p : Procedure}
    (h : (unitTree r.rest).arguments? w.scope = some (command :: args))
    (hp : w.scope.resolve command = .procedure p) :
    (run files depth .unit r w).world.scope = w.scope := by
  cases depth with
  | zero => rfl
  | succ depth =>
    rw [(agrees_dispatch files depth r w h).scope_eq]
    exact scope_dispatchWith_of_procedure files (run files depth) hp args

/-! ### What follows a call -/

/-- Of two answers, the second one is the first one with further output in front of its own. -/
structure Answer.Behind (w : World) (output : List UInt8) (alone after : Answer) : Prop where
  outcome_eq : after.outcome = alone.outcome
  scope_eq : after.world.scope = alone.world.scope
  output_eq : ∃ own, alone.world.output = w.output ++ own ∧
    after.world.output = w.output ++ output ++ own

/-- What was written before makes no difference to an answer. -/
lemma behind_of_output (files : Files) (depth : Nat) (q : Request) {w w' : World}
    {output : List UInt8} (hscope : w'.scope = w.scope) (hroom : w'.console.room = w.console.room)
    (hout : w'.output = w.output ++ output) :
    Answer.Behind w output (q.answer files depth w) (q.answer files depth w') := by
  -- both worlds are the same world without a past, put on top of their own pasts
  let fresh : World := ⟨w.scope, ⟨[], w.console.room⟩⟩
  have hw : w = fresh.onto w.console.journal := rfl
  have hw' : w' = fresh.onto w'.console.journal := by
    obtain ⟨scope, ⟨journal, room⟩⟩ := w'
    obtain rfl : scope = w.scope := hscope
    obtain rfl : room = w.console.room := hroom
    rfl
  have ha := answer_onto files depth q fresh w.console.journal
  have ha' := answer_onto files depth q fresh w'.console.journal
  rw [← hw] at ha
  rw [← hw'] at ha'
  rw [ha, ha']
  refine ⟨rfl, rfl, (q.answer files depth fresh).world.output, World.output_onto .., ?_⟩
  rw [← hout]
  exact World.output_onto ..

/-- Behind one unit that fills a text there is nothing left. -/
lemma behindUnit_of_newline_not_mem {u : Text} (h : newline ∉ tokens u) : behindUnit u = [] := by
  have hunit : ∀ {depth} {ts : List Text}, newline ∉ ts → unitTokens depth ts = ts := by
    intro depth ts hts
    induction ts generalizing depth with
    | nil => rfl
    | cons t ts ih =>
      obtain ⟨ht, hts⟩ := not_or.mp fun hor => hts (List.mem_cons.mpr hor)
      rw [unitTokens, if_neg fun hand => ht hand.1.symm, ih hts]
  have hlen : firstUnit u = tokens u := hunit h
  have hnone : tokens (dropTokens (tokens u).length u) = [] := by
    rw [tokens_dropTokens, List.drop_length]
  rw [behindUnit, hlen, dropTokens_add]
  cases ht : (lex (dropTokens (tokens u).length u)).token with
  | none => exact rest_lex_of_token_eq_none ht
  | some t =>
    rw [tokens_of_some ht] at hnone
    exact absurd hnone (List.cons_ne_nil _ _)

/-- A text of one unit that succeeds, in front of a newline and a further text. -/
lemma evalText_unit_append_newline (files : Files) (depth : Nat) {u b : Text} {w : World}
    {command v : Text} {args : List Text}
    (hargs : (unitTree u).arguments? w.scope = some (command :: args))
    (hends : EndsOutside u) (hnl : newline ∉ tokens u) (hb : b ≠ [])
    (hv : (run files depth .unit (.ofText u) w).outcome = .ok v) :
    evalText files depth (u ++ '\n' :: b) w =
      evalText files depth b (run files depth .unit (.ofText u) w).world := by
  cases depth with
  | zero => simp [run] at hv
  | succ depth =>
    have hargs' : (UnitTree.ofTokens (tokens u)).arguments? w.scope = some (command :: args) := by
      rwa [unitTree, firstUnit, UnitTree.ofTokens_unitTokens] at hargs
    have hne : u ≠ [] := by
      rintro rfl
      rw [tokens_nil, UnitTree.ofTokens_nil] at hargs'
      simp [UnitTree.arguments?] at hargs'
    have hself : SelfContained u :=
      ⟨hends, UnitTree.foldl_deeper_of_arguments? hargs' hnl⟩
    have hext : Extends b (.ofText u) (.ofText (u ++ '\n' :: b)) := ⟨rfl, rfl, hself, rfl⟩
    have hfault : (run files (depth + 1) .unit (.ofText u) w).reader.fault = none := by
      change (evalUnit files (run files depth) (.ofText u) w).reader.fault = none
      rw [reader_evalUnit]
      exact (parallel_arguments (run files depth) w hext).fault_left
    have hrest := (agrees_dispatch files depth (.ofText u) w hargs).rest_eq v hv
    rw [Reader.rest_ofText, behindUnit_of_newline_not_mem hnl] at hrest
    -- the body `u` is its one unit
    have hbody : evalBody files (run files depth) [] (.ofText u) w =
        (run files (depth + 1) .unit (.ofText u) w).bind (evalBody files (run files depth)) := by
      rw [evalBody_eq_bind_arguments files _ w [] rfl hne, ← Run.bind_bind]
      exact congrArg (Run.bind · _) (evalUnit_eq _ _ _ _).symm
    have hanswer : (evalBody files (run files depth) [] (.ofText u) w).answer =
        ⟨.ok v, (run files (depth + 1) .unit (.ofText u) w).world⟩ := by
      rw [hbody]
      generalize run files (depth + 1) .unit (.ofText u) w = x at hv hrest hfault ⊢
      obtain ⟨o, r, w'⟩ := x
      obtain rfl : o = .ok v := hv
      rw [Run.bind_ok, evalBody_of_rest_eq_nil _ _ _ _ _ hrest, look_of_fault_eq_none _ hfault]
      rfl
    change (evalBody files (run files depth) [] (.ofText (u ++ '\n' :: b)) w).answer = _
    rw [evalBody_append_newline files _ w hext hb [], hanswer]
    rfl

/-- A procedure call leaves the caller's names as they are, however it ends; all that it does is to
add to the output of scripts.  So where that output has no limit, what is run behind a unit that
calls a procedure does what it does alone, with the output of the call in front of its own.  This
holds for a further text, and for one script that holds the unit, if it succeeds, and the text. -/
theorem procedure_call_leaves_only_output (files : Files) (depth : Nat) {command : Text}
    {args : List Text} {p : Procedure} {w : World}
    (hp : w.scope.resolve command = .procedure p) :
    let called := (dispatch files depth command args w).world
    (called.scope = w.scope ∧ (∃ written, called.output = w.output ++ written) ∧
      ∀ channel, channel ≠ .script → called.console.bytes channel = w.console.bytes channel) ∧
    (w.console.room.script = none →
      ∀ u, (unitTree u).arguments? w.scope = some (command :: args) →
        ∃ written, (run files depth .unit (.ofText u) w).world.output = w.output ++ written ∧
          (∀ depth' b, Answer.Behind w written (evalText files depth' b w)
            (evalText files depth' b (run files depth .unit (.ofText u) w).world)) ∧
          ∀ v b, (run files depth .unit (.ofText u) w).outcome = .ok v → EndsOutside u →
            newline ∉ tokens u → b ≠ [] →
            Answer.Behind w written (evalText files depth b w)
              (evalText files depth (u ++ '\n' :: b) w)) := by
  intro called
  constructor
  · have hgrows : w.console.Grows called.console :=
      grows_dispatchWith (grows_run files depth) command args w
    obtain ⟨written, hwritten⟩ := hgrows.bytes_isPrefix .script
    exact ⟨scope_dispatchWith_of_procedure files (run files depth) hp args,
      ⟨written, hwritten.symm⟩, fun channel hc => hgrows.bytes_eq hc⟩
  · intro hroom u hu
    have hscope := scope_run_of_procedure files depth (.ofText u) hu hp
    have hgrows := grows_run files depth .unit (.ofText u) w
    obtain ⟨written, hwritten⟩ := hgrows.bytes_isPrefix .script
    refine ⟨written, hwritten.symm, fun depth' b => ?_, fun v b hv hends hnl hb => ?_⟩
    · exact behind_of_output files depth' (.text b) hscope (hgrows.room_eq hroom) hwritten.symm
    · rw [evalText_unit_append_newline files depth hu hends hnl hb hv]
      exact behind_of_output files depth (.text b) hscope (hgrows.room_eq hroom) hwritten.symm

/-- A procedure that sets a variable of its caller and redefines itself, called in front of a script
that uses both and then fails. -/
theorem call_in_front_of_failing_script :
    let files : Files := fun _ => .error .notFound
    let p : Procedure := ⟨"a b".toList, "set x $b\nproc f a b\nputs $a".toList⟩
    let w : World := ⟨((Namespace.initial none).defineProcedure "f".toList p).setVariable "x".toList
      "1 2".toList, {}⟩
    let u := "f \x7ba ]\x7d \x7b\x7d $x # [".toList
    let args := ["a ]".toList, "1 2".toList]
    let b := "puts $x\nf 3 $y".toList
    let called := (dispatch files 4 "f".toList args w).world
    let x := run files 4 .unit (.ofText u) w
    w.scope.resolve "f".toList = .procedure p ∧ w.console.room.script = none ∧
      (unitTree u).arguments? w.scope = some ("f".toList :: args) ∧ x.outcome = .ok [] ∧
      EndsOutside u ∧ newline ∉ tokens u ∧ called.scope = w.scope ∧
      ∃ written, x.world.output = w.output ++ written ∧
        Answer.Behind w written (evalText files 4 b w) (evalText files 4 b x.world) ∧
        Answer.Behind w written (evalText files 4 b w) (evalText files 4 (u ++ '\n' :: b) w) := by
  intro files p w u args b called x
  have hp : w.scope.resolve "f".toList = .procedure p := rfl
  have hu : (unitTree u).arguments? w.scope = some ("f".toList :: args) := by decide +kernel
  have hv : x.outcome = .ok [] := by decide +kernel
  have hends : EndsOutside u := by decide +kernel
  have hnl : newline ∉ tokens u := by decide +kernel
  obtain ⟨hcall, hbehind⟩ := procedure_call_leaves_only_output files 4 hp
  obtain ⟨written, hwritten, hnext, hjoined⟩ := hbehind rfl u hu
  exact ⟨hp, rfl, hu, hv, hends, hnl, hcall.1, written, hwritten, hnext 4 b,
    hjoined [] b hv hends hnl (by decide)⟩

end LineScript
