/-
# What scripts can build can be spelled

Values are texts, and scripts take texts apart and put them together: blocks turn literals back into
source, and bodies and parameter lists are read anew at every call.  All the same, a script never
comes to hold a text that is not a token of some script.  What is stored, passed on or given back is
a token of a text that was read, a number as it is written, or empty, and each of these is
spellable.

`Namespace.Spelled` says so of what a namespace holds.  An evaluation that begins in such a
namespace leaves one, and its value is spellable (`gives_run`); so the same is true of every task in
its course (`Task.Spelled.of_starts`), and of every sequence of operations: `spelled_throughout`.
-/
import LineScript.Proofs.Course
import LineScript.Proofs.InputFailure
import LineScript.Proofs.LimitedOutput
import LineScript.Proofs.Spelling

namespace LineScript

/-! ### Numbers -/

namespace Decimal

lemma closeBrace_not_mem_toDigits (n : Nat) : '}' ∉ Nat.toDigits 10 n := by
  intro h
  exact absurd (Nat.isDigit_of_mem_toDigits (by decide) (by decide) h) (by decide)

lemma closeBrace_not_mem_positional (coefficient : Nat) (exponent : Int) :
    '}' ∉ positional coefficient exponent := by
  have hdigits := closeBrace_not_mem_toDigits coefficient
  have hzeros : ∀ k, '}' ∉ List.replicate k '0' := by
    intro k h
    exact absurd (List.eq_of_mem_replicate h) (by decide)
  cases exponent with
  | ofNat k =>
    intro h
    rcases List.mem_append.mp h with h | h
    · exact hdigits h
    · exact hzeros k h
  | negSucc k =>
    intro h
    rcases List.mem_append.mp h with h | h
    · rcases List.mem_append.mp (List.mem_of_mem_take h) with h | h
      · exact hzeros _ h
      · exact hdigits h
    · rcases List.mem_cons.mp h with h | h
      · exact absurd h (by decide)
      · rcases List.mem_append.mp (List.mem_of_mem_drop h) with h | h
        · exact hzeros _ h
        · exact hdigits h

lemma closeBrace_not_mem_writeMagnitude (n : Nat) : '}' ∉ writeMagnitude n := by
  rw [writeMagnitude]
  split
  · decide
  split
  · decide
  · rcases shortest n with ⟨coefficient, exponent⟩
    exact closeBrace_not_mem_positional coefficient exponent

/-- The text of a number is spellable. -/
lemma spellable_write (x : Binary64) : Spellable (write x) := by
  have hmagnitude := closeBrace_not_mem_writeMagnitude x.magnitude
  left
  rw [write]
  split
  · decide
  split
  · simpa using hmagnitude
  · exact hmagnitude

end Decimal

lemma spellable_truth (b : Bool) : Spellable (truth b) := by
  cases b <;> decide

/-! ### Namespaces -/

/-- All texts that the namespace holds are spellable, and its primitives are builtins. -/
structure Namespace.Spelled (n : Namespace) : Prop where
  builtinsOnly : n.BuiltinsOnly
  values : ∀ name value, n.values.get? name = some value → Spellable name ∧ Spellable value
  procedures : ∀ name p, n.procedures.get? name = some p →
    Spellable name ∧ Spellable p.params ∧ Spellable p.body

namespace Namespace

lemma spelled_initial (library : Option Text) : (initial library).Spelled where
  builtinsOnly := builtinsOnly_initial library
  values _ value h := nomatch (show none = some value from h)
  procedures _ p h := nomatch (show none = some p from h)

namespace Spelled

variable {n : Namespace} (h : n.Spelled)
include h

lemma setVariable {name value : Text} (hname : Spellable name) (hvalue : Spellable value) :
    (n.setVariable name value).Spelled := by
  refine ⟨h.builtinsOnly, fun other v hv => ?_, h.procedures⟩
  change (n.values.insert name value).get? other = some v at hv
  rw [Table.get?_insert] at hv
  split at hv
  · rename_i hother
    obtain rfl := Option.some.inj hv
    exact ⟨hother ▸ hname, hvalue⟩
  · exact h.values other v hv

lemma defineProcedure {name : Text} {p : Procedure} (hname : Spellable name)
    (hparams : Spellable p.params) (hbody : Spellable p.body) :
    (n.defineProcedure name p).Spelled := by
  refine ⟨h.builtinsOnly, h.values, fun other q hq => ?_⟩
  change (n.procedures.insert name p).get? other = some q at hq
  rw [Table.get?_insert] at hq
  split at hq
  · rename_i hother
    obtain rfl := Option.some.inj hq
    exact ⟨hother ▸ hname, hparams, hbody⟩
  · exact h.procedures other q hq

lemma bind {params args : List Text} (hparams : ∀ p ∈ params, Spellable p)
    (hargs : ∀ a ∈ args, Spellable a) : (n.bind params args).Spelled := by
  have hpairs : ∀ x ∈ params.zip args, Spellable x.1 ∧ Spellable x.2 := by
    rintro ⟨p, a⟩ hx
    exact ⟨hparams p (List.of_mem_zip hx).1, hargs a (List.of_mem_zip hx).2⟩
  rw [Namespace.bind]
  generalize params.zip args = pairs at hpairs
  induction pairs generalizing n with
  | nil => exact h
  | cons x pairs ih =>
    obtain ⟨hp, ha⟩ := hpairs x List.mem_cons_self
    exact ih (h.setVariable hp ha) fun y hy => hpairs y (List.mem_cons_of_mem x hy)

end Spelled
end Namespace

/-- The parameters of a procedure are tokens. -/
lemma spellable_of_mem_parameters {t p : Text} (h : p ∈ parameters t) : Spellable p :=
  spellable_of_mem_tokens (List.mem_filter.mp h).1

/-! ### Runs -/

/-- The run leaves a namespace all of whose texts are spellable, and a value, if it has one, that is
as it should be. -/
structure Run.Gives {α : Type} (good : α → Prop) (x : Run α) : Prop where
  scope : x.world.scope.Spelled
  value : ∀ a, x.outcome = .ok a → good a

namespace Run.Gives

variable {α β : Type} {good : α → Prop} {good' : β → Prop} {r : Reader} {w : World}

lemma ok {a : α} (h : w.scope.Spelled) (ha : good a) : Gives good ⟨.ok a, r, w⟩ :=
  ⟨h, fun _ ho => Outcome.ok.inj ho ▸ ha⟩

lemma error (h : w.scope.Spelled) (e : Error) : Gives good ⟨.error e, r, w⟩ :=
  ⟨h, fun _ ho => nomatch ho⟩

lemma unfinished (h : w.scope.Spelled) : Gives good ⟨.unfinished, r, w⟩ :=
  ⟨h, fun _ ho => nomatch ho⟩

lemma map {x : Run α} (h : x.Gives good) {f : α → β} (hf : ∀ a, good a → good' (f a)) :
    (x.map f).Gives good' := by
  rcases x with ⟨a | e | -, r, w⟩
  · exact .ok h.scope (hf a (h.value a rfl))
  · exact .error h.scope e
  · exact .unfinished h.scope

lemma bind {x : Run α} (h : x.Gives good) {f : α → Reader → World → Run β}
    (hf : ∀ a, good a → (f a x.reader x.world).Gives good') : (x.bind f).Gives good' := by
  rcases x with ⟨a | e | -, r, w⟩
  · exact hf a (h.value a rfl)
  · exact .error h.scope e
  · exact .unfinished h.scope

end Run.Gives

/-! Reading and writing leave the names alone. -/

lemma World.scope_of_emit {w v : World} {channel : Channel} {t : Text} {ok : Bool}
    (h : w.emit channel t = (ok, v)) : v.scope = w.scope := by
  obtain rfl := congrArg Prod.snd h
  rfl

section Reading

variable (r : Reader) (w : World)

lemma scope_pull : (pull r w).world.scope = w.scope :=
  World.scope_eq_of_quiet_eq (quiet_pull r w)

lemma scope_look : (look r w).world.scope = w.scope :=
  World.scope_eq_of_quiet_eq (quiet_look r w)

lemma scope_skip : (skip r w).2.scope = w.scope :=
  World.scope_eq_of_quiet_eq (quiet_observe r.skipLine w)

lemma scope_collect (depth : Nat) : (collect depth r w).world.scope = w.scope := by
  induction r using Reader.induction_on_rest generalizing depth w with
  | step r ih =>
    rw [collect_eq]
    split
    · exact scope_pull r w
    · rename_i t ht
      split
      · exact scope_pull r w
      · exact (ih _ (length_rest_pull_lt ht) _ _).trans (scope_pull r w)

end Reading

/-- The evaluation keeps what a namespace holds spellable, and so are its values. -/
def Evaluation.Spells (nested : Evaluation) : Prop :=
  ∀ extent r {w : World}, w.scope.Spelled → (nested extent r w).Gives Spellable

/-! ### Commands -/

section Commands

variable {files : Files} {nested : Evaluation} {w : World} (hn : nested.Spells)
  (h : w.scope.Spelled) (r : Reader)
include h

lemma gives_putLine (t : Text) : (Run.ofAnswer (putLine t w) r).Gives Spellable := by
  rw [putLine]
  rcases hemit : w.emit .script (t ++ newline) with ⟨ok, v⟩
  have hv : v.scope.Spelled := by rwa [World.scope_of_emit hemit]
  cases ok with
  | true => exact .ok hv spellable_nil
  | false => exact .error hv _

lemma gives_withNumbers (a b : Text) {f : Binary64 → Binary64 → Text}
    (hf : ∀ x y, Spellable (f x y)) :
    Run.Gives Spellable ⟨.ofExcept (withNumbers a b f), r, w⟩ := by
  rw [withNumbers]
  cases number a with
  | error e => exact .error h e
  | ok x =>
    cases number b with
    | error e => exact .error h e
    | ok y => exact .ok h (hf x y)

include hn

lemma gives_callProcedure (command : Text) {p : Procedure} {args : List Text}
    (hargs : ∀ a ∈ args, Spellable a) :
    (Run.ofAnswer (callProcedure nested command p args w) r).Gives Spellable := by
  rw [callProcedure]
  split
  · have hscope := h.bind (fun _ => spellable_of_mem_parameters (t := p.params)) hargs
    -- the names of the call are gone, and its value is that of the body
    exact ⟨h, (hn .body (.ofText p.body) hscope).value⟩
  · exact .error h _

lemma gives_loadScript (name : Text) :
    (Run.ofAnswer (loadScript files nested name w) r).Gives Spellable := by
  rw [loadScript]
  rcases findScript files name w.scope.library with ⟨notes, _ | ⟨path, content⟩⟩
  · exact .ok h spellable_nil
  · have hbody := hn .body (.ofStream content.stream) (w := w.notes notes) h
    exact ⟨hbody.scope, hbody.value⟩

lemma gives_performBuiltin (b : Builtin) {args : List Text} (hargs : ∀ a ∈ args, Spellable a) :
    (Run.ofAnswer (performBuiltin files nested b args w) r).Gives Spellable := by
  unfold performBuiltin
  split
  · exact gives_putLine h r _
  · exact .ok (h.setVariable (hargs _ (by simp)) (hargs _ (by simp))) (hargs _ (by simp))
  · exact .ok (h.defineProcedure (hargs _ (by simp)) (hargs _ (by simp)) (hargs _ (by simp)))
      (hargs _ (by simp))
  · exact gives_loadScript hn h r _
  · exact gives_withNumbers h r _ _ fun _ _ => Decimal.spellable_write _
  · exact gives_withNumbers h r _ _ fun _ _ => spellable_truth _
  · exact .error h _

lemma gives_dispatchWith (command : Text) {args : List Text} (hargs : ∀ a ∈ args, Spellable a) :
    (Run.ofAnswer (dispatchWith files nested command args w) r).Gives Spellable := by
  unfold dispatchWith
  split
  · rename_i p _
    exact gives_callProcedure (w := w.note _) hn h r command hargs
  · rename_i p hp
    obtain ⟨b, rfl⟩ := h.builtinsOnly command p (Namespace.resolve_eq_primitive_iff.mp hp).2
    exact gives_performBuiltin (w := w.note _) hn h r b hargs
  · exact .error h _

/-! ### Units and bodies -/

lemma gives_argument {t : Text} (ht : Spellable t) : (argument nested t r w).Gives Spellable := by
  by_cases hv : ∃ name, t = '$' :: name
  · obtain ⟨name, rfl⟩ := hv
    rw [argument_variable]
    split
    · rename_i value hvalue
      exact .ok h (h.values name value hvalue).2
    · exact .error h _
  by_cases hb : t = openBlock
  · subst hb
    have hcollect : (collect 0 r w).world.scope.Spelled := by rwa [scope_collect]
    rw [argument_openBlock]
    cases hc : (collect 0 r w).closed with
    | true =>
      -- the text of the block need not be spellable: it is not a value, it is read once more
      have hblock := hn .unit (.ofText (collect 0 r w).code) hcollect
      rw [evalBlock_of_closed _ _ _ hc]
      exact ⟨hblock.scope, hblock.value⟩
    | false =>
      rw [evalBlock_of_unclosed _ _ _ hc]
      exact .error hcollect _
  · rw [argument_word _ _ _ (fun name heq => hv ⟨name, heq⟩) hb]
    exact .ok h ht

lemma gives_arguments :
    (arguments nested r w).Gives fun args => ∀ a ∈ args, Spellable a := by
  induction r using Reader.induction_on_rest generalizing w with
  | step r ih =>
    have hpull : (pull r w).world.scope.Spelled := by rwa [scope_pull]
    rw [arguments_eq]
    split
    · exact .ok hpull (by simp)
    · rename_i t ht
      have hlt := length_rest_pull_lt ht
      split
      · exact ih _ hlt hpull
      split
      · exact .ok hpull (by simp)
      · have harg := gives_argument hn hpull (pull r w).reader (spellable_of_lex ht)
        refine harg.bind fun value hvalue => ?_
        have hle := length_rest_argument_le nested t (pull r w).reader (pull r w).world
        have hrest := ih _ (Nat.lt_of_le_of_lt hle hlt) harg.scope
        refine hrest.map fun args hargs => ?_
        rintro a (_ | ⟨_, ha⟩)
        · exact hvalue
        · exact hargs a ha

lemma gives_evalUnit : (evalUnit files nested r w).Gives Spellable := by
  have hargs := gives_arguments hn h r
  rw [evalUnit_eq]
  refine hargs.bind fun args hall => ?_
  cases args with
  | nil => exact .ok hargs.scope spellable_nil
  | cons command args =>
    exact gives_dispatchWith hn hargs.scope _ command fun a ha => hall a (List.mem_cons_of_mem _ ha)

lemma gives_evalBody {last : Text} (hlast : Spellable last) :
    (evalBody files nested last r w).Gives Spellable := by
  induction r using Reader.induction_on_rest generalizing last w with
  | step r ih =>
    have hlook : (look r w).world.scope.Spelled := by rwa [scope_look]
    by_cases hr : r.rest = []
    · rw [evalBody_of_rest_eq_nil _ _ _ _ _ hr]
      exact .ok hlook hlast
    · have hunit : (evalUnit files nested (look r w).reader (look r w).world).Gives Spellable :=
        gives_evalUnit hn hlook _
      rw [evalBody_of_rest_ne_nil _ _ _ _ _ hr]
      refine hunit.bind fun value hvalue => ?_
      exact ih _ (length_rest_evalUnit_look_lt _ _ _ hr) hunit.scope hvalue

end Commands

/-- Every evaluation keeps what a namespace holds spellable, and so are its values. -/
theorem gives_run (files : Files) (depth : Nat) : (run files depth).Spells := by
  induction depth with
  | zero => exact fun _ _ _ h => .unfinished h
  | succ depth ih =>
    intro extent r w h
    cases extent with
    | unit => exact gives_evalUnit ih h r
    | body => exact gives_evalBody ih h r spellable_nil

/-! ### All that is evaluated in the course of an evaluation -/

namespace Task

/-- What a task begins with is spellable: what its namespace holds, and what is handed to it. -/
structure Spelled (task : Task) : Prop where
  scope : task.world.scope.Spelled
  handed : ∀ t ∈ task.handed, Spellable t

namespace Spelled

variable {files : Files} {task task' : Task}

lemma args {depth : Nat} {name : Text} {args : List Text} {w : World}
    (h : (command depth name args w).Spelled) : ∀ a ∈ args, Spellable a :=
  fun a ha => h.handed a (List.mem_cons_of_mem name ha)

/-- A task that begins with spellable texts comes to spellable texts. -/
lemma gives (h : task.Spelled) (files : Files) :
    (task.result files).Gives fun values => ∀ t ∈ values, Spellable t := by
  have hone : ∀ t, Spellable t → ∀ t' ∈ [t], Spellable t' := by simp
  cases task with
  | script depth extent r w => exact (gives_run files depth extent r h.scope).map hone
  | units depth last r w =>
    have hlast := h.handed last (List.mem_singleton.mpr rfl)
    exact (gives_evalBody (gives_run files depth) h.scope r hlast).map hone
  | reading depth r w => exact gives_arguments (gives_run files depth) h.scope r
  | command depth name args w =>
    exact (gives_dispatchWith (gives_run files depth) h.scope _ name h.args).map hone
  | loading depth name w => exact (gives_loadScript (gives_run files depth) h.scope _ name).map hone

/-- A task that begins with spellable texts only begins such tasks. -/
lemma of_starts (h : task.Spelled) (hs : task.Starts files task') : task'.Spelled := by
  have hscope : task.world.scope.Spelled := h.scope
  cases hs with
  | body depth r w =>
    refine ⟨hscope, fun t ht => ?_⟩
    obtain rfl := List.mem_singleton.mp ht
    exact spellable_nil
  | unit depth last w _ => exact ⟨by rwa [world, scope_look], nofun⟩
  | @nextUnit depth last r r' w w' value _ hrun =>
    have hlook : (look r w).world.scope.Spelled := by rwa [scope_look]
    have hunit := gives_run files (depth + 1) .unit (look r w).reader hlook
    rw [hrun] at hunit
    refine ⟨hunit.scope, fun t ht => ?_⟩
    obtain rfl := List.mem_singleton.mp ht
    exact hunit.value t rfl
  | line depth r w => exact ⟨hscope, nofun⟩
  | @command depth r r' w w' name args hread =>
    have hargs := gives_arguments (w := w) (gives_run files depth) hscope r
    rw [hread] at hargs
    exact ⟨hargs.scope, hargs.value _ rfl⟩
  | empty depth _ => exact ⟨by rwa [world, scope_pull], nofun⟩
  | block depth _ hc _ =>
    subst hc
    exact ⟨by rwa [world, scope_collect, scope_pull], nofun⟩
  | @nextArgument depth r r' w w' t value ht _ _ harg =>
    have hpull : (pull r w).world.scope.Spelled := by rwa [scope_pull]
    have hvalue := gives_argument (gives_run files depth) hpull (pull r w).reader
      (spellable_of_lex ht)
    rw [harg] at hvalue
    exact ⟨hvalue.scope, nofun⟩
  | call depth _ _ =>
    exact ⟨hscope.bind (fun _ => spellable_of_mem_parameters) h.args, nofun⟩
  | load depth file _ => exact ⟨hscope, nofun⟩
  | file depth _ => exact ⟨hscope, nofun⟩

/-- Every task in the course of one that begins with spellable texts does so too. -/
lemma of_leadsTo (h : task.Spelled) (hs : task.LeadsTo files task') : task'.Spelled := by
  induction hs with
  | refl => exact h
  | tail _ hstarts ih => exact ih.of_starts hstarts

end Spelled
end Task

/-! ### The interactive loop -/

namespace Repl

variable {files : Files} {depth : Nat} {r r' : Reader} {w w' : World}

/-- Showing what came of a unit leaves the names alone. -/
lemma scope_respond (x : Run Text) : (respond x).world.scope = x.world.scope := by
  obtain ⟨o, r, w⟩ := x
  cases o with
  | ok value =>
    rw [respond, world_goOn]
    rfl
  | error e =>
    rw [respond, world_goOn]
    exact scope_skip r w
  | unfinished => rfl

lemma spelled_round (files : Files) (depth : Nat) (r : Reader) (h : w.scope.Spelled) :
    (round files depth r w).world.scope.Spelled := by
  rw [round]
  rcases hprompt : w.emit .reply prompt with ⟨ok, w₁⟩
  have hw₁ : w₁.scope.Spelled := by rwa [World.scope_of_emit hprompt]
  cases ok with
  | false => exact hw₁
  | true =>
    have hlook : (look r w₁).world.scope.Spelled := by rwa [scope_look]
    dsimp only
    generalize look r w₁ = x at hlook ⊢
    obtain ⟨exhausted, r₂, w₂⟩ := x
    cases exhausted with
    | true =>
      dsimp only
      rcases hnewline : World.emit w₂ .reply newline with ⟨ok, w₃⟩
      have hw₃ : w₃.scope.Spelled := by rwa [World.scope_of_emit hnewline]
      cases ok <;> exact hw₃
    | false =>
      dsimp only
      rw [scope_respond]
      exact (gives_run files depth .unit r₂ hlook).scope

lemma Rounds.spelled (hr : Rounds files depth r w r' w') (h : w.scope.Spelled) :
    w'.scope.Spelled := by
  induction hr with
  | refl => exact h
  | @head r r₁ r' w w₁ w' hround _ ih =>
    have hnext := spelled_round files depth r h
    rw [hround] at hnext
    exact ih hnext

lemma spelled_loop (files : Files) (depth : Nat) (r : Reader) (h : w.scope.Spelled) :
    (loop files depth r w).world.scope.Spelled := by
  induction r using Reader.induction_on_rest generalizing w with
  | step r ih =>
    have hround := spelled_round files depth r h
    cases hnext : round files depth r w with
    | next r' w' =>
      rw [loop_of_next files depth hnext]
      rw [hnext] at hround
      exact ih r' (length_lt_of_round hnext) hround
    | stop ending r' w' =>
      rw [loop_of_stop files depth hnext]
      rwa [hnext] at hround

end Repl

/-! ### Sequences of operations -/

/-- The task of a request begins with what the request does. -/
lemma Request.spelled_task (files : Files) (depth : Nat) (q : Request) {w : World}
    (hw : w.scope.Spelled) (hq : ∀ t ∈ (Operation.request files depth q).handed, Spellable t) :
    (q.task depth w).Spelled := by
  cases q with
  | command name args => exact ⟨hw, hq⟩
  | unit r => exact ⟨hw, nofun⟩
  | text code => exact ⟨hw, nofun⟩
  | script name => exact ⟨hw, nofun⟩

namespace Operation

variable {op : Operation} {w : World} (hw : w.scope.Spelled) (hop : ∀ t ∈ op.handed, Spellable t)
include hw hop

lemma spelled_world : (op.world w).scope.Spelled := by
  cases op with
  | request files depth q =>
    have hscope := ((q.spelled_task files depth hw hop).gives files).scope
    rwa [(q.result_task files depth w).2] at hscope
  | session files depth input reply complaint => exact Repl.spelled_loop files depth _ hw

lemma Begins.spelled {task : Task} (h : op.Begins w task) : task.Spelled := by
  cases h with
  | request files depth q => exact q.spelled_task files depth hw hop
  | @session files depth input reply complaint _ v v' r hrounds hprompt _ =>
    have hv : v.scope.Spelled := hrounds.spelled hw
    have hv' : v'.scope.Spelled := by rwa [World.scope_of_emit hprompt]
    exact ⟨by rwa [Task.world, scope_look], nofun⟩

lemma LeadsTo.spelled {task : Task} (h : op.LeadsTo w task) : task.Spelled := by
  obtain ⟨first, hfirst, hleads⟩ := h
  exact (hfirst.spelled hw hop).of_leadsTo hleads

end Operation

lemma spelled_operate {ops : List Operation} (hops : ∀ op ∈ ops, ∀ t ∈ op.handed, Spellable t)
    {w : World} (hw : w.scope.Spelled) : (operate ops w).scope.Spelled := by
  induction ops generalizing w with
  | nil => exact hw
  | cons op ops ih =>
    have hop := Operation.spelled_world hw (hops op List.mem_cons_self)
    exact ih (fun op' h => hops op' (List.mem_cons_of_mem op h)) hop

/-- From the initial namespace on, texts, scripts and sessions never make a text that is not
spellable, and neither do commands whose words are spellable: not in the namespaces that they leave,
nor in those of the procedures that they call, nor among the words of the commands that they run,
nor among the values that anything in their course gives. -/
theorem spelled_throughout (library : Option Text) (console : Console) {ops : List Operation}
    (hops : ∀ op ∈ ops, ∀ t ∈ op.handed, Spellable t) :
    let w : World := ⟨.initial library, console⟩
    (operate ops w).scope.Spelled ∧
      ∀ before op after, ops = before ++ op :: after →
        (∀ files depth q value, op = .request files depth q →
          (q.answer files depth (operate before w)).outcome = .ok value → Spellable value) ∧
        ∀ task, op.LeadsTo (operate before w) task →
          task.Spelled ∧ (task.result op.files).Gives fun values => ∀ t ∈ values, Spellable t := by
  intro w
  have hw : w.scope.Spelled := Namespace.spelled_initial library
  refine ⟨spelled_operate hops hw, ?_⟩
  rintro before op after rfl
  have hbefore : (operate before w).scope.Spelled :=
    spelled_operate (fun op' h => hops op' (List.mem_append_left _ h)) hw
  have hop := hops op (List.mem_append_right before List.mem_cons_self)
  constructor
  · rintro files depth q value rfl hvalue
    have hgives := (q.spelled_task files depth hbefore hop).gives files
    refine hgives.value [value] ?_ value (List.mem_singleton.mpr rfl)
    rw [(q.result_task files depth _).1, hvalue]
    rfl
  · intro task htask
    have hspelled := htask.spelled hbefore hop
    exact ⟨hspelled, hspelled.gives op.files⟩

/-- In a session, a procedure that an earlier text has defined is called with words that hold a
brace and a blank.  The namespace of the call holds them, and can be spelled. -/
theorem braces_and_blanks_spelled :
    let files : Files := fun _ => .error .notFound
    let text := "p a\x7db \x7bc d\x7d\nset y a\x7db\n".toList
    let first : Operation :=
      .request files 2 (.text "proc p \x7bq r\x7d \x7bset x $r\x7d\n".toList)
    let second : Operation := .session files 3 ⟨[.bytes (Utf8.encode text)], none⟩ none none
    let w : World := ⟨.initial none, {}⟩
    (∃ task, second.LeadsTo (operate [first] w) task ∧ task.Spelled ∧
      task.world.scope.values.get? "q".toList = some "a\x7db".toList ∧
      task.world.scope.values.get? "r".toList = some "c d".toList) ∧
    (operate [first, second] w).scope.Spelled ∧
      (operate [first, second] w).scope.values.get? "y".toList = some "a\x7db".toList := by
  intro files text first second w
  have hops : ∀ op ∈ [first, second], ∀ t ∈ op.handed, Spellable t := by
    simp [first, second, Operation.handed]
  obtain ⟨hscope, hcourse⟩ := spelled_throughout none {} hops
  refine ⟨?_, hscope, by decide +kernel⟩
  let v := ((operate [first] w).withRoom none none).emit .reply Repl.prompt
  let r : Reader := .ofStream ⟨[.bytes (Utf8.encode text)], none⟩
  let x := arguments (run files 2) (look r v.2).reader (look r v.2).world
  let p : Procedure := ⟨"q r".toList, "set x $r".toList⟩
  let called : World := { x.world.note (.callingProcedure "p".toList 2) with
    scope := x.world.scope.bind (parameters p.params) ["a\x7db".toList, "c d".toList] }
  have hbegins : second.Begins (operate [first] w)
      (.script 3 .unit (look r v.2).reader (look r v.2).world) :=
    .session (.refl _ _) rfl (by decide +kernel)
  have hx : x = ⟨.ok ["p".toList, "a\x7db".toList, "c d".toList], x.reader, x.world⟩ := by
    have hok : x.outcome = .ok ["p".toList, "a\x7db".toList, "c d".toList] := by decide +kernel
    rw [← hok]
  have hp : x.world.scope.resolve "p".toList = .procedure p :=
    Namespace.resolve_eq_procedure_iff.mpr (by decide +kernel)
  have hleads : Task.LeadsTo files (.script 3 .unit (look r v.2).reader (look r v.2).world)
      (.script 2 .body (.ofText p.body) called) :=
    .tail (.single (.command hx)) (.call 2 hp (by decide +kernel))
  refine ⟨_, ⟨_, hbegins, hleads⟩, ?_, by decide +kernel, by decide +kernel⟩
  exact ((hcourse [first] second [] rfl).2 _ ⟨_, hbegins, hleads⟩).1

end LineScript
