/-
# Namespaces

A namespace holds three tables, so that one name can be a variable, a procedure and a primitive at
once, and the directory in which scripts are looked for besides the working directory.  A command
name means its procedure if it has one, and otherwise its primitive.

A primitive is one of the thirteen builtins or a function of the host program.  The builtins work on
the namespace and the output of their caller.  Of the functions that a host program can add, only
those are covered that depend on nothing but their arguments: they neither read nor change the names
or the output of their caller, and all that is said of primitives is said of these.
-/

import LineScript.Table
import LineScript.Error
import LineScript.Binary64

namespace LineScript

/-- The arithmetic operators. -/
inductive Arithmetic where
  | add
  | sub
  | mul
  | div
deriving DecidableEq, Repr

namespace Arithmetic

/-- The name of an operator. -/
def name : Arithmetic → Text
  | add => ['+']
  | sub => ['-']
  | mul => ['*']
  | div => ['/']

/-- The operation on numbers. -/
def apply : Arithmetic → Binary64 → Binary64 → Binary64
  | add => Binary64.add
  | sub => Binary64.sub
  | mul => Binary64.mul
  | div => Binary64.div

end Arithmetic

/-- The comparison operators. -/
inductive Comparison where
  | lt
  | gt
  | le
  | ge
  | eq
deriving DecidableEq, Repr

namespace Comparison

/-- The name of an operator. -/
def name : Comparison → Text
  | lt => ['<']
  | gt => ['>']
  | le => ['<', '=']
  | ge => ['>', '=']
  | eq => ['=', '=']

/-- The relation on numbers. -/
def apply : Comparison → Binary64 → Binary64 → Bool
  | lt, x, y => x.lt y
  | gt, x, y => y.lt x
  | le, x, y => x.le y
  | ge, x, y => y.le x
  | eq, x, y => x.eq y

end Comparison

/-- The commands that need no definition. -/
inductive Builtin where
  /-- Writes a line of output. -/
  | puts
  /-- Gives a variable a value. -/
  | set
  /-- Defines a procedure. -/
  | proc
  /-- Evaluates a script file. -/
  | load
  /-- Computes with two numbers. -/
  | arithmetic (op : Arithmetic)
  /-- Compares two numbers. -/
  | comparison (op : Comparison)
deriving DecidableEq, Repr

namespace Builtin

/-- The name of a builtin, which it also gives itself in errors. -/
def name : Builtin → Text
  | puts => "puts".toList
  | set => "set".toList
  | proc => "proc".toList
  | load => "load".toList
  | arithmetic op => op.name
  | comparison op => op.name

/-- All builtins. -/
def all : List Builtin :=
  [puts, set, proc, load,
    arithmetic .add, arithmetic .sub, arithmetic .mul, arithmetic .div,
    comparison .lt, comparison .gt, comparison .le, comparison .ge, comparison .eq]

/-- The builtin of a name. -/
def ofName? (n : Text) : Option Builtin :=
  all.find? (·.name = n)

end Builtin

/-- A command that is not defined by script text. -/
inductive Primitive where
  /-- One of the builtins. -/
  | builtin (b : Builtin)
  /-- A function of the host program, on nothing but the arguments. -/
  | host (f : List Text → Except Error Text)

/-- A command defined by script text; neither text is examined before a call. -/
structure Procedure where
  /-- The names of the parameters. -/
  params : Text
  /-- The script that a call runs. -/
  body : Text
deriving DecidableEq, Repr

/-- What a command name means. -/
inductive Command where
  /-- A procedure. -/
  | procedure (p : Procedure)
  /-- A primitive. -/
  | primitive (p : Primitive)
  /-- Nothing. -/
  | unbound

/-- The names known to a script. -/
structure Namespace where
  /-- The values of variables. -/
  values : Table Text := .empty
  /-- The procedures. -/
  procedures : Table Procedure := .empty
  /-- The primitives. -/
  primitives : Table Primitive := .empty
  /-- The directory in which scripts are looked for besides the working directory. -/
  library : Option Text := none

namespace Namespace

/-- The namespace without names. -/
def empty : Namespace := {}

/-- Gives a variable a value. -/
def setVariable (n : Namespace) (name value : Text) : Namespace :=
  { n with values := n.values.insert name value }

/-- Defines a procedure. -/
def defineProcedure (n : Namespace) (name : Text) (p : Procedure) : Namespace :=
  { n with procedures := n.procedures.insert name p }

/-- Adds a primitive under the given name. -/
def register (n : Namespace) (name : Text) (p : Primitive) : Namespace :=
  { n with primitives := n.primitives.insert name p }

/-- The namespace in which a script starts: the builtins under their names. -/
def initial (library : Option Text) : Namespace :=
  Builtin.all.foldl (fun n b => n.register b.name (.builtin b)) { library }

/-- What a command name means: procedures come before primitives. -/
def resolve (n : Namespace) (name : Text) : Command :=
  match n.procedures.get? name with
  | some p => .procedure p
  | none =>
    match n.primitives.get? name with
    | some p => .primitive p
    | none => .unbound

theorem resolve_eq_procedure_iff {n : Namespace} {name : Text} {p : Procedure} :
    n.resolve name = .procedure p ↔ n.procedures.get? name = some p := by
  unfold resolve
  cases n.procedures.get? name <;> cases n.primitives.get? name <;> simp

theorem resolve_eq_primitive_iff {n : Namespace} {name : Text} {p : Primitive} :
    n.resolve name = .primitive p ↔
      n.procedures.get? name = none ∧ n.primitives.get? name = some p := by
  unfold resolve
  cases n.procedures.get? name <;> cases n.primitives.get? name <;> simp

theorem resolve_eq_unbound_iff {n : Namespace} {name : Text} :
    n.resolve name = .unbound ↔
      n.procedures.get? name = none ∧ n.primitives.get? name = none := by
  unfold resolve
  cases n.procedures.get? name <;> cases n.primitives.get? name <;> simp

/-- A procedure hides the primitive of its name. -/
theorem resolve_defineProcedure_self (n : Namespace) (name : Text) (p : Procedure) :
    (n.defineProcedure name p).resolve name = .procedure p := by
  simp [resolve, defineProcedure]

/-- Gives each parameter its argument, in order. -/
def bind (n : Namespace) (params args : List Text) : Namespace :=
  (params.zip args).foldl (fun n (p, a) => n.setVariable p a) n

end Namespace
end LineScript
