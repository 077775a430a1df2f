/-
# Entry point

Connects the program to the operating system.  Evaluation itself opens no files: it is run with the
files read so far, and when the journal shows that a script was looked for under a path not read
yet, that path is read and the evaluation run again.  In the same way the interactive loop runs a
round on the lines read so far, and reads another line if the round came to their end.  Nothing is
shown before a run is settled, so running again has no effect outside.
-/

import LineScript.Program

namespace LineScript
namespace Shell

/-- The levels of nesting allowed. -/
def depth : Nat := 1000000

/-- What is known of the file system. -/
abbrev Known := List (Text × Except OpenError Content)

/-- The file system as far as it is known. -/
def filesOf (known : Known) : Files := fun path =>
  (known.lookup path).getD (.error .notFound)

/-- Reads bytes to the end. -/
partial def readAll (h : IO.FS.Handle) (acc : Array UInt8) : IO (List UInt8) := do
  let chunk ← h.read 8192
  if chunk.isEmpty then return acc.toList
  readAll h (acc ++ chunk.data)

/-- The content of what has been opened.  What cannot be read is a directory. -/
def contentOf (h : IO.FS.Handle) : IO Content := do
  try
    let bytes ← readAll h #[]
    return .file bytes
  catch _ => return .directory

/-- Opens a path. -/
def openPath (path : Text) : IO (Except OpenError Content) := do
  if '\x00' ∈ path then return .error .nullInName
  try
    let h ← IO.FS.Handle.mk (String.ofList path) .read
    let content ← contentOf h
    return .ok content
  catch _ => return .error .notFound

/-- The paths in a journal that were looked for without being known. -/
def wanted (known : Known) (journal : List Entry) : List Text :=
  journal.filterMap fun
    | .note (.cannotOpen path .notFound) =>
      if (known.lookup path).isNone then some path else none
    | _ => none

/-- Runs with more and more of the file system known, until nothing else is looked for. -/
partial def settle {α : Type} (known : Known) (attempt : Files → α)
    (journal : α → List Entry) : IO α := do
  let a := attempt (filesOf known)
  match wanted known (journal a) with
  | [] => return a
  | paths =>
    let read ← paths.mapM fun path => do
      let content ← openPath path
      return (path, content)
    settle (known ++ read) attempt journal

/-- Writes bytes and passes them on at once. -/
def send (stream : IO.FS.Stream) (bytes : List UInt8) : IO Unit := do
  unless bytes.isEmpty do
    stream.write ⟨bytes.toArray⟩
    stream.flush

/-- Quits, and says so on standard error. -/
def quit : IO Program.Status := do
  try
    send (← IO.getStderr) (Utf8.encode Program.fatalLine)
    return .failure
  catch _ => return .aborted

/-- Writes bytes to standard output.  If they are not taken, the program quits with the status that
is given back. -/
def sendOut (bytes : List UInt8) : IO (Option Program.Status) := do
  try
    send (← IO.getStdout) bytes
    return none
  catch _ =>
    let status ← quit
    return some status

/-- Shows what a world has written; prompts already shown are left out.  If a standard stream fails,
the program ends with the status that is given back. -/
def present (w : World) (shown : Nat) : IO (Option Program.Status) := do
  if let some status ← sendOut ((Program.standardOutput w).drop shown) then
    return some status
  try
    send (← IO.getStderr) (Program.standardError w)
    return none
  catch _ => return some .aborted

/-- Reads a line, with its newline, from standard input.  The input ends where it cannot be read. -/
partial def readLine (acc : Array UInt8) : IO (List UInt8) := do
  let input ← IO.getStdin
  let chunk ← try input.read 1 catch _ => pure .empty
  if chunk.isEmpty then return acc.toList
  let acc := acc ++ chunk.data
  if chunk.data.contains 10 then return acc.toList
  readLine acc

/-- The world of a round. -/
def worldOf : Repl.Round → World
  | .next _ w => w
  | .stop _ _ w => w

/-- The reader that a round leaves. -/
def readerOf : Repl.Round → Reader
  | .next r _ => r
  | .stop _ r _ => r

/-- The status with which the program ends behind the interactive loop. -/
def statusOf : Repl.Ending → Program.Status
  | .finished => .success
  | .channelFailed => .failure
  | .unfinished => .unfinished

/-- Runs the interactive loop: `pending` is what has been read of the input and not used, `ended`
says whether there is no more of it, and `shown` how much of the prompt is on the screen. -/
partial def converse (pending : Text) (ended : Bool) (shown : Nat) (w : World) :
    IO Program.Status := do
  let round ← settle [] (fun files => Repl.round files depth (.ofText pending) w)
    (fun round => (worldOf round).console.journal)
  if !ended && (readerOf round).metEnd then
    if shown = 0 then
      if let some status ← sendOut (Utf8.encode Repl.prompt) then
        return status
    let line ← readLine #[]
    converse (pending ++ Utf8.decode line) line.isEmpty Repl.prompt.length w
  else
    let w := worldOf round
    if let some status ← present w shown then
      return status
    match round with
    | .next r w => converse r.rest ended 0 { w with console := w.console.take.2 }
    | .stop ending _ _ => return statusOf ending

/-- Runs the program. -/
def runProgram (args : List Text) (home : Option Text) : IO Program.Status := do
  let w := Program.start home {}
  match args with
  | [] =>
    try
      send (← IO.getStdout) (Utf8.encode (Repl.banner ++ newline))
    catch _ => return .aborted
    converse [] false 0 w
  | _ :: _ =>
    let (status, w) ← settle []
      (fun files => Program.batch files depth args w)
      (fun result => result.2.console.journal)
    let failed ← present w 0
    return failed.getD status

end Shell
end LineScript

def main (args : List String) : IO UInt32 := do
  let home ← IO.getEnv "HOME"
  let status ← LineScript.Shell.runProgram (args.map String.toList) (home.map String.toList)
  return UInt32.ofNat status.code
