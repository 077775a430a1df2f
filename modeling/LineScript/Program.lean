/-
# The command-line program

With arguments the program loads the named scripts in order, in one namespace, and stops at the
first that fails.  Without arguments it shows its banner and runs the interactive loop on standard
input.  Script output, prompts and values go to standard output, errors to standard error.

If output cannot be written while scripts run, then the program quits with a line that says so.  The
banner and that line themselves are written outside of all this: if one of them cannot be written,
the program is aborted.  What the runtime reports then on standard error is not described here.
-/

import LineScript.Repl

namespace LineScript
namespace Program

/-- How the program ended. -/
inductive Status where
  /-- All went well. -/
  | success
  /-- A script failed, or output could not be written. -/
  | failure
  /-- A standard stream did not take what the program itself had to say. -/
  | aborted
  /-- A script was nested too deeply. -/
  | unfinished
deriving DecidableEq, Repr

/-- The exit code of the program. -/
def Status.code : Status → Nat
  | success => 0
  | failure => 1
  | aborted => 101
  | unfinished => 134

/-- What is shown when output cannot be written. -/
def fatalLine : Text := "fatal error; quitting\n".toList

/-- What is shown when a script fails. -/
def failureLine : Error → Text
  | .outputFailed _ => fatalLine
  | e => Repl.errorLine e

/-- Ends the program with a line on standard error. -/
def quit (line : Text) (w : World) : Status × World :=
  match w.emit .complaint line with
  | (true, w) => (.failure, w)
  | (false, w) => (.aborted, w)

/-- Loads the named scripts in order. -/
def batch (files : Files) (depth : Nat) : List Text → World → Status × World
  | [], w => (.success, w)
  | name :: names, w =>
    match load files depth name w with
    | ⟨.ok _, w⟩ => batch files depth names w
    | ⟨.error e, w⟩ => quit (failureLine e) w
    | ⟨.unfinished, w⟩ => (.unfinished, w)

/-- Runs the interactive loop. -/
def interactive (files : Files) (depth : Nat) (input : Reader) (w : World) : Status × World :=
  match w.emit .reply (Repl.banner ++ newline) with
  | (false, w) => (.aborted, w)
  | (true, w) =>
    match Repl.loop files depth input w with
    | ⟨.finished, _, w⟩ => (.success, w)
    | ⟨.channelFailed, _, w⟩ => quit fatalLine w
    | ⟨.unfinished, _, w⟩ => (.unfinished, w)

/-- The world in which the program starts. -/
def start (home : Option Text) (room : Room) : World where
  scope := .initial (libraryOfHome home)
  console := { room }

/-- Runs the program with the given arguments and standard input. -/
def execute (files : Files) (depth : Nat) (args : List Text) (input : Reader) (w : World) :
    Status × World :=
  match args with
  | [] => interactive files depth input w
  | _ :: _ => batch files depth args w

/-- What the program has written to standard output. -/
def standardOutput (w : World) : List UInt8 :=
  w.console.journal.reverse.filterMap fun
    | .byte .complaint _ => none
    | .byte _ b => some b
    | .note _ => none

/-- What the program has written to standard error. -/
def standardError (w : World) : List UInt8 :=
  bytesOn .complaint w.console.journal.reverse

end Program
end LineScript
