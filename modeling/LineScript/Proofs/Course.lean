/-
# The course of an evaluation

An evaluation begins others in its course: a body evaluates its units, a unit reads its arguments
and runs a command, an argument may be a block, and a command may call a procedure or load a script.
A `Task` is any of these evaluations, with the world in which it begins, and `Task.Starts` says
which tasks a task begins itself, with one rule for each place of the evaluator where that happens.
So the tasks that a task leads to are all that is evaluated in its course, in its own scope and in
the scopes of procedures: no other script makes a difference to it (`Task.result_eq_of_covers`).
Each namespace that there is meanwhile is one in which some task begins or one that some task
leaves.
-/
import Mathlib.Logic.Relation
import LineScript.Proofs.Lasting

namespace LineScript

/-- An evaluation, with the world in which it begins. -/
inductive Task where
  /-- A script is evaluated. -/
  | script (depth : Nat) (extent : Extent) (r : Reader) (w : World)
  /-- What is left of a body is evaluated, behind a unit with the given value. -/
  | units (depth : Nat) (last : Text) (r : Reader) (w : World)
  /-- What is left of the arguments of a unit is read. -/
  | reading (depth : Nat) (r : Reader) (w : World)
  /-- A command is run. -/
  | command (depth : Nat) (name : Text) (args : List Text) (w : World)
  /-- A script is loaded. -/
  | loading (depth : Nat) (name : Text) (w : World)

namespace Task

/-- The world in which a task begins. -/
def world : Task → World
  | script _ _ _ w | units _ _ _ w | reading _ _ w | command _ _ _ w | loading _ _ w => w

/-- The texts that are handed to a task: the value so far, or a command with its arguments. -/
def handed : Task → List Text
  | units _ last _ _ => [last]
  | command _ name args _ => name :: args
  | script .. | reading .. | loading .. => []

/-- What a task comes to: its value, or the arguments that it has read. -/
def result (files : Files) : Task → Run (List Text)
  | script depth extent r w => (run files depth extent r w).map ([·])
  | units depth last r w => (evalBody files (run files depth) last r w).map ([·])
  | reading depth r w => arguments (run files depth) r w
  | command depth name args w =>
    (Run.ofAnswer (dispatch files depth name args w) (.ofText [])).map ([·])
  | loading depth name w => (Run.ofAnswer (load files depth name w) (.ofText [])).map ([·])

/-- The first task begins the second one itself. -/
inductive Starts (files : Files) : Task → Task → Prop
  | body (depth : Nat) (r : Reader) (w : World) :
      Starts files (script (depth + 1) .body r w) (units depth [] r w)
  | unit (depth : Nat) (last : Text) {r : Reader} (w : World) : r.rest ≠ [] →
      Starts files (units depth last r w)
        (script (depth + 1) .unit (look r w).reader (look r w).world)
  | nextUnit {depth : Nat} (last : Text) {r r' : Reader} {w w' : World} {value : Text} :
      r.rest ≠ [] →
      run files (depth + 1) .unit (look r w).reader (look r w).world = ⟨.ok value, r', w'⟩ →
      Starts files (units depth last r w) (units depth value r' w')
  | line (depth : Nat) (r : Reader) (w : World) :
      Starts files (script (depth + 1) .unit r w) (reading depth r w)
  | command {depth : Nat} {r r' : Reader} {w w' : World} {name : Text} {args : List Text} :
      arguments (run files depth) r w = ⟨.ok (name :: args), r', w'⟩ →
      Starts files (script (depth + 1) .unit r w) (command depth name args w')
  | empty (depth : Nat) {r : Reader} {w : World} : (pull r w).token = some [] →
      Starts files (reading depth r w) (reading depth (pull r w).reader (pull r w).world)
  | block (depth : Nat) {r : Reader} {w : World} {c : Collected} :
      (pull r w).token = some openBlock → collect 0 (pull r w).reader (pull r w).world = c →
      c.closed = true →
      Starts files (reading depth r w) (script depth .unit (.ofText c.code) c.world)
  | nextArgument {depth : Nat} {r r' : Reader} {w w' : World} {t value : Text} :
      (pull r w).token = some t → t ≠ [] → t ≠ newline →
      argument (run files depth) t (pull r w).reader (pull r w).world = ⟨.ok value, r', w'⟩ →
      Starts files (reading depth r w) (reading depth r' w')
  | call (depth : Nat) {name : Text} {args : List Text} {w : World} {p : Procedure} :
      w.scope.resolve name = .procedure p → (parameters p.params).length = args.length →
      Starts files (command depth name args w)
        (script depth .body (.ofText p.body)
          { w.note (.callingProcedure name args.length) with
            scope := w.scope.bind (parameters p.params) args })
  | load (depth : Nat) {name : Text} (file : Text) {w : World} :
      w.scope.resolve name = .primitive (.builtin .load) →
      Starts files (command depth name [file] w)
        (loading depth file (w.note (.callingPrimitive name 1)))
  | file (depth : Nat) {name path : Text} {w : World} {notes : List Note} {content : Content} :
      findScript files name w.scope.library = (notes, some (path, content)) →
      Starts files (loading depth name w)
        (script depth .body (.ofStream content.stream) (w.notes notes))

/-- The second task is evaluated in the course of the first one. -/
def LeadsTo (files : Files) : Task → Task → Prop :=
  Relation.ReflTransGen (Starts files)

/-! ### The course is complete

A task uses the evaluation of scripts on nothing but the scripts in its course: any evaluation that
agrees on these would do as well. -/

/-- What a task comes to if the scripts one level further down are evaluated as given. -/
def resultBy (files : Files) (nested : Evaluation) : Task → Run (List Text)
  | script 0 _ r w => ⟨.unfinished, r, w⟩
  | script (_ + 1) .unit r w => (evalUnit files nested r w).map ([·])
  | script (_ + 1) .body r w => (evalBody files nested [] r w).map ([·])
  | units _ last r w => (evalBody files nested last r w).map ([·])
  | reading _ r w => arguments nested r w
  | command _ name args w =>
    (Run.ofAnswer (dispatchWith files nested name args w) (.ofText [])).map ([·])
  | loading _ name w => (Run.ofAnswer (loadScript files nested name w) (.ofText [])).map ([·])

/-- The levels of nesting that are allowed one level further down. -/
def level : Task → Nat
  | script depth _ _ _ => depth - 1
  | units depth _ _ _ | reading depth _ _ | command depth _ _ _ | loading depth _ _ => depth

lemma result_eq_resultBy (files : Files) (task : Task) :
    task.result files = task.resultBy files (run files task.level) := by
  rcases task with ⟨_ | depth, _ | _, r, w⟩ | _ | _ | _ | _ <;> rfl

/-- The evaluation agrees with the one that has so many levels of nesting, on the scripts in the
course of the task. -/
def Covers (files : Files) (depth : Nat) (nested : Evaluation) (task : Task) : Prop :=
  ∀ extent r w, task.LeadsTo files (script depth extent r w) →
    nested extent r w = run files depth extent r w

section Covers

variable {files : Files} {depth : Nat} {nested : Evaluation}

lemma Covers.of_starts {task task' : Task} (h : Covers files depth nested task)
    (hs : task.Starts files task') : Covers files depth nested task' :=
  fun extent r w hleads => h extent r w (.head hs hleads)

lemma Covers.eq_of_starts {task : Task} (h : Covers files depth nested task) {extent : Extent}
    {r : Reader} {w : World} (hs : task.Starts files (script depth extent r w)) :
    nested extent r w = run files depth extent r w :=
  h extent r w (.single hs)

variable {r : Reader} {w : World}

lemma argument_congr (h : Covers files depth nested (reading depth r w)) {t : Text}
    (ht : (pull r w).token = some t) :
    argument nested t (pull r w).reader (pull r w).world =
      argument (run files depth) t (pull r w).reader (pull r w).world := by
  by_cases hv : ∃ name, t = '$' :: name
  · obtain ⟨name, rfl⟩ := hv
    rw [argument_variable, argument_variable]
  by_cases hb : t = openBlock
  · subst hb
    rw [argument_openBlock, argument_openBlock]
    cases hc : (collect 0 (pull r w).reader (pull r w).world).closed with
    | true =>
      rw [evalBlock_of_closed _ _ _ hc, evalBlock_of_closed _ _ _ hc, Evaluation.answer,
        Evaluation.answer, h.eq_of_starts (.block depth ht rfl hc)]
    | false => rw [evalBlock_of_unclosed _ _ _ hc, evalBlock_of_unclosed _ _ _ hc]
  · have hw : ∀ name, t ≠ '$' :: name := fun name heq => hv ⟨name, heq⟩
    rw [argument_word _ _ _ hw hb, argument_word _ _ _ hw hb]

lemma arguments_congr (h : Covers files depth nested (reading depth r w)) :
    arguments nested r w = arguments (run files depth) r w := by
  induction r using Reader.induction_on_rest generalizing w with
  | step r ih =>
    cases ht : (pull r w).token with
    | none => rw [arguments_of_end r w _ (.inl ht), arguments_of_end r w _ (.inl ht)]
    | some t =>
      have hlt := length_rest_pull_lt ht
      by_cases hnl : t = newline
      · subst hnl
        rw [arguments_of_end r w _ (.inr ht), arguments_of_end r w _ (.inr ht)]
      by_cases hne : t = []
      · subst hne
        rw [arguments_of_empty r w _ ht, arguments_of_empty r w _ ht]
        exact ih _ hlt (h.of_starts (.empty depth ht))
      · have hle := length_rest_argument_le (run files depth) t (pull r w).reader (pull r w).world
        rw [arguments_of_token r w _ ht hne hnl, arguments_of_token r w _ ht hne hnl,
          argument_congr h ht]
        -- the arguments behind this one are read only if it has a value
        cases harg : argument (run files depth) t (pull r w).reader (pull r w).world with
        | mk o r' w' =>
          rw [harg] at hle
          cases o with
          | ok value =>
            rw [Run.bind_ok, Run.bind_ok,
              ih r' (Nat.lt_of_le_of_lt hle hlt) (h.of_starts (.nextArgument ht hne hnl harg))]
          | error e => rfl
          | unfinished => rfl

lemma loadScript_congr {name : Text} (h : Covers files depth nested (loading depth name w)) :
    loadScript files nested name w = loadScript files (run files depth) name w := by
  rw [loadScript, loadScript]
  rcases hfound : findScript files name w.scope.library with ⟨notes, _ | ⟨path, content⟩⟩
  · rfl
  · dsimp only
    rw [Evaluation.answer, Evaluation.answer, h.eq_of_starts (.file depth hfound)]

lemma dispatchWith_congr {name : Text} {args : List Text}
    (h : Covers files depth nested (command depth name args w)) :
    dispatchWith files nested name args w = dispatchWith files (run files depth) name args w := by
  rw [dispatchWith, dispatchWith]
  split
  · rename_i p hp
    rw [callProcedure, callProcedure]
    dsimp only
    split
    · rename_i harity
      exact congrArg (fun x : Run Text => (⟨x.outcome, { x.world with scope := w.scope }⟩ : Answer))
        (h.eq_of_starts (.call depth hp harity))
    · rfl
  · rename_i p hp
    cases p with
    | host f => rfl
    | builtin b =>
      rw [performPrimitive, performPrimitive]
      unfold performBuiltin
      split
      case h_4 file => exact loadScript_congr (h.of_starts (.load depth file hp))
      all_goals rfl
  · rfl

lemma evalUnit_congr (h : Covers files depth nested (script (depth + 1) .unit r w)) :
    evalUnit files nested r w = evalUnit files (run files depth) r w := by
  rw [evalUnit_eq, evalUnit_eq, arguments_congr (h.of_starts (.line depth r w))]
  cases hread : arguments (run files depth) r w with
  | mk o r' w' =>
    cases o with
    | ok args =>
      cases args with
      | nil => rfl
      | cons name args =>
        rw [Run.bind_ok, Run.bind_ok, perform, perform,
          dispatchWith_congr (h.of_starts (.command hread))]
    | error e => rfl
    | unfinished => rfl

lemma evalBody_congr {last : Text} (h : Covers files depth nested (units depth last r w)) :
    evalBody files nested last r w = evalBody files (run files depth) last r w := by
  induction r using Reader.induction_on_rest generalizing last w with
  | step r ih =>
    by_cases hr : r.rest = []
    · rw [evalBody_of_rest_eq_nil _ _ _ _ _ hr, evalBody_of_rest_eq_nil _ _ _ _ _ hr]
    · have hlt := length_rest_evalUnit_look_lt w (run files depth) files hr
      rw [evalBody_of_rest_ne_nil _ _ _ _ _ hr, evalBody_of_rest_ne_nil _ _ _ _ _ hr,
        evalUnit_congr (h.of_starts (.unit depth last w hr))]
      cases hunit : evalUnit files (run files depth) (look r w).reader (look r w).world with
      | mk o r' w' =>
        rw [hunit] at hlt
        cases o with
        | ok value =>
          rw [Run.bind_ok, Run.bind_ok]
          exact ih r' hlt (h.of_starts (.nextUnit last hr hunit))
        | error e => rfl
        | unfinished => rfl

end Covers

/-- No script is evaluated that is not in the course of the task. -/
theorem result_eq_of_covers {files : Files} {nested : Evaluation} {task : Task}
    (h : Covers files task.level nested task) : task.result files = task.resultBy files nested := by
  rw [result_eq_resultBy]
  cases task with
  | script depth extent r w =>
    cases depth with
    | zero => rfl
    | succ depth =>
      cases extent with
      | unit => exact congrArg (Run.map ([·])) (evalUnit_congr h).symm
      | body => exact congrArg (Run.map ([·])) (evalBody_congr (h.of_starts (.body depth r w))).symm
  | units depth last r w => exact congrArg (Run.map ([·])) (evalBody_congr h).symm
  | reading depth r w => exact (arguments_congr h).symm
  | command depth name args w => rw [resultBy, resultBy, dispatchWith_congr h, level]
  | loading depth name w => rw [resultBy, resultBy, loadScript_congr h, level]

end Task

/-! ### The tasks of operations -/

/-- The task that a request is. -/
def Request.task (depth : Nat) : Request → World → Task
  | unit r, w => .script depth .unit r w
  | text code, w => .script depth .body (.ofText code) w
  | command name args, w => .command depth name args w
  | script name, w => .loading depth name w

/-- The answer to a request is what its task comes to. -/
lemma Request.result_task (files : Files) (depth : Nat) (q : Request) (w : World) :
    ((q.task depth w).result files).outcome = (q.answer files depth w).outcome.map ([·]) ∧
      ((q.task depth w).result files).world = (q.answer files depth w).world := by
  cases q <;> exact ⟨rfl, rfl⟩

namespace Operation

/-- The files there are at the time of an operation. -/
def files : Operation → Files
  | request files .. | session files .. => files

/-- The texts that are handed to an operation as a command with its arguments. -/
def handed : Operation → List Text
  | request _ _ (.command name args) => name :: args
  | request _ _ (.unit _) | request _ _ (.text _) | request _ _ (.script _) | session .. => []

/-- The operation begins the task: a request is a task, and the interactive loop evaluates one unit
after the other. -/
inductive Begins : Operation → World → Task → Prop
  | request (files : Files) (depth : Nat) (q : Request) (w : World) :
      Begins (request files depth q) w (q.task depth w)
  | session {files : Files} {depth : Nat} {input : ByteStream} {reply complaint : Option Nat}
      {w v v' : World} {r : Reader} :
      Repl.Rounds files depth (.ofStream input) (w.withRoom reply complaint) r v →
      v.emit .reply Repl.prompt = (true, v') → r.rest ≠ [] →
      Begins (session files depth input reply complaint) w
        (.script depth .unit (look r v').reader (look r v').world)

/-- The task is evaluated in the course of the operation. -/
def LeadsTo (op : Operation) (w : World) (task : Task) : Prop :=
  ∃ first, op.Begins w first ∧ first.LeadsTo op.files task

end Operation
end LineScript
