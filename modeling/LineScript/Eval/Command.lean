/-
# Running a command

A command is run with its arguments in a world.  A procedure runs its body in a copy of the
namespace, so that nothing but its output stays; a primitive works on the namespace itself.

Bodies and script files are evaluated by `nested`, the evaluation one level further down, which is
a parameter here.
-/

import LineScript.Decimal.Shortest
import LineScript.Eval.World

namespace LineScript

/-- How much of a script is evaluated. -/
inductive Extent where
  /-- One unit: up to the end of the line that closes it. -/
  | unit
  /-- All units to the end. -/
  | body
deriving DecidableEq, Repr

/-- An evaluation of scripts. -/
abbrev Evaluation := Extent → Reader → World → Run Text

/-- The answer of evaluating a script of its own. -/
def Evaluation.answer (e : Evaluation) (extent : Extent) (r : Reader) (w : World) : Answer :=
  let x := e extent r w
  ⟨x.outcome, x.world⟩

/-! ### Procedures -/

/-- The names in a parameter list. -/
def parameters (t : Text) : List Text :=
  (tokens t).filter fun p => p ≠ [] ∧ p ≠ newline

/-- Calls a procedure: its body runs in a copy of the namespace in which the parameters are bound,
and the caller's namespace is as before. -/
def callProcedure (nested : Evaluation) (command : Text) (p : Procedure) (args : List Text)
    (w : World) : Answer :=
  let params := parameters p.params
  if params.length = args.length then
    let a := nested.answer .body (.ofText p.body) { w with scope := w.scope.bind params args }
    ⟨a.outcome, { a.world with scope := w.scope }⟩
  else ⟨.error (.wrongArity command), w⟩

/-! ### Loading -/

/-- Opens the first path that can be opened, and notes each attempt. -/
def openFirst (files : Files) : List Text → List Note × Option (Text × Content)
  | [] => ([], none)
  | path :: paths =>
    match files path with
    | .ok content => ([.loading path], some (path, content))
    | .error cause =>
      let (notes, found) := openFirst files paths
      (.cannotOpen path cause :: notes, found)

/-- Looks for a script and opens it. -/
def findScript (files : Files) (name : Text) (library : Option Text) :
    List Note × Option (Text × Content) :=
  openFirst files (candidates name library)

/-- Evaluates the named script in the world itself.  A script that is not found has the empty
value. -/
def loadScript (files : Files) (nested : Evaluation) (name : Text) (w : World) : Answer :=
  let (notes, found) := findScript files name w.scope.library
  let w := w.notes notes
  match found with
  | none => ⟨.ok [], w.note (.notFound name)⟩
  | some (_, content) => nested.answer .body (.ofStream content.stream) w

/-! ### Builtins -/

/-- The number that an argument spells. -/
def number (argument : Text) : Except Error Binary64 :=
  match Decimal.read? argument with
  | some x => .ok x
  | none => .error (.notNumber argument)

/-- The text of a truth value. -/
def truth (b : Bool) : Text :=
  if b then ['1'] else ['0']

/-- Applies a function to the numbers that two arguments spell; the first argument that spells
none is the error. -/
def withNumbers (a b : Text) (f : Binary64 → Binary64 → Text) : Except Error Text := do
  let x ← number a
  let y ← number b
  return f x y

/-- Writes a line of script output. -/
def putLine (text : Text) (w : World) : Answer :=
  match w.emit .script (text ++ newline) with
  | (true, w) => ⟨.ok [], w⟩
  | (false, w) => ⟨.error (.outputFailed Console.fullReason), w⟩

/-- Runs a builtin. -/
def performBuiltin (files : Files) (nested : Evaluation) (b : Builtin) (args : List Text)
    (w : World) : Answer :=
  match b, args with
  | .puts, [text] => putLine text w
  | .set, [name, value] => ⟨.ok value, { w with scope := w.scope.setVariable name value }⟩
  | .proc, [name, params, body] =>
    ⟨.ok name, { w with scope := w.scope.defineProcedure name ⟨params, body⟩ }⟩
  | .load, [name] => loadScript files nested name w
  | .arithmetic op, [x, y] =>
    ⟨.ofExcept (withNumbers x y fun x y => Decimal.write (op.apply x y)), w⟩
  | .comparison op, [x, y] =>
    ⟨.ofExcept (withNumbers x y fun x y => truth (op.apply x y)), w⟩
  | _, _ => ⟨.error (.wrongArity b.name), w⟩

/-- Runs a primitive. -/
def performPrimitive (files : Files) (nested : Evaluation) (p : Primitive) (args : List Text)
    (w : World) : Answer :=
  match p with
  | .builtin b => performBuiltin files nested b args w
  | .host f => ⟨.ofExcept (f args), w⟩

/-- Runs the named command; the call is noted before anything else happens. -/
def dispatchWith (files : Files) (nested : Evaluation) (command : Text) (args : List Text)
    (w : World) : Answer :=
  match w.scope.resolve command with
  | .procedure p =>
    callProcedure nested command p args (w.note (.callingProcedure command args.length))
  | .primitive p =>
    performPrimitive files nested p args (w.note (.callingPrimitive command args.length))
  | .unbound => ⟨.error (.unknownCommand command), w⟩

end LineScript
