/-
# The console

Everything that evaluation shows to the outside goes through the console: bytes on three
channels, and notes on what is being done.  The console keeps a journal of both, newest first, and
the room that is left on each channel.  A channel takes bytes until its room is used up; the next
byte then fails, and writing no bytes never fails.
-/

import LineScript.Files

namespace LineScript

/-- Where bytes are written to. -/
inductive Channel where
  /-- The output of scripts. -/
  | script
  /-- The prompts and values of the interactive loop. -/
  | reply
  /-- The errors shown by the interactive loop. -/
  | complaint
deriving DecidableEq, Repr

/-- A remark on what evaluation does. -/
inductive Note where
  /-- A procedure is called with so many arguments. -/
  | callingProcedure (command : Text) (args : Nat)
  /-- A primitive is called with so many arguments. -/
  | callingPrimitive (command : Text) (args : Nat)
  /-- A script has been opened. -/
  | loading (path : Text)
  /-- A script could not be opened. -/
  | cannotOpen (path : Text) (cause : OpenError)
  /-- A script to load was not found. -/
  | notFound (name : Text)
  /-- The input has failed; it is taken to end here. -/
  | inputFailed (reason : Text)
deriving DecidableEq, Repr

namespace Note

/-- The wording of the remark that a command is called. -/
def callText (kind : String) (command : Text) (args : Nat) : Text :=
  "TRACE calling ".toList ++ kind.toList ++ " command=".toList ++ command
    ++ " args=".toList ++ Nat.toDigits 10 args

/-- The wording of a note, with its level. -/
def text : Note → Text
  | callingProcedure command args => callText "procedure" command args
  | callingPrimitive command args => callText "primitive" command args
  | loading path => "DEBUG loading ".toList ++ path
  | cannotOpen path cause =>
    "DEBUG can't open ".toList ++ path ++ ": ".toList ++ cause.message
  | notFound name => "DEBUG script ".toList ++ name ++ " not found".toList
  | inputFailed reason =>
    "WARN input stream failed, treating as end of input: ".toList ++ reason

end Note

/-- One entry of the journal. -/
inductive Entry where
  /-- A byte was written. -/
  | byte (channel : Channel) (b : UInt8)
  /-- A note was made. -/
  | note (n : Note)
deriving DecidableEq, Repr

/-- The number of bytes that each channel still takes; `none` if it takes any number. -/
structure Room where
  /-- The room for the output of scripts. -/
  script : Option Nat := none
  /-- The room for prompts and values. -/
  reply : Option Nat := none
  /-- The room for errors. -/
  complaint : Option Nat := none
deriving DecidableEq, Repr

namespace Room

/-- The room left on a channel. -/
def on (r : Room) : Channel → Option Nat
  | .script => r.script
  | .reply => r.reply
  | .complaint => r.complaint

/-- The room once a channel has taken a byte. -/
def spend (r : Room) : Channel → Room
  | .script => { r with script := r.script.map (· - 1) }
  | .reply => { r with reply := r.reply.map (· - 1) }
  | .complaint => { r with complaint := r.complaint.map (· - 1) }

end Room

/-- The journal of what has been shown, and the room that is left. -/
structure Console where
  /-- The entries, newest first. -/
  journal : List Entry := []
  /-- The room left on each channel. -/
  room : Room := {}
deriving DecidableEq, Repr

namespace Console

/-- The reason why a channel without room fails. -/
def fullReason : Text := "sink full".toList

/-- Adds a note to the journal. -/
def note (c : Console) (n : Note) : Console :=
  { c with journal := .note n :: c.journal }

/-- Adds notes to the journal, in order. -/
def notes (c : Console) (ns : List Note) : Console :=
  ns.foldl note c

/-- Writes bytes to a channel as long as it has room, and tells whether it took them all. -/
def write (c : Console) (channel : Channel) : List UInt8 → Bool × Console
  | [] => (true, c)
  | b :: bs =>
    if c.room.on channel = some 0 then (false, c)
    else
      write { journal := .byte channel b :: c.journal, room := c.room.spend channel } channel bs

/-- Writes a text to a channel. -/
def writeText (c : Console) (channel : Channel) (t : Text) : Bool × Console :=
  c.write channel (Utf8.encode t)

@[simp] theorem write_nil (c : Console) (channel : Channel) : c.write channel [] = (true, c) :=
  rfl

/-- A channel without room refuses the next byte, and nothing changes. -/
theorem write_cons_of_full {c : Console} {channel : Channel} (h : c.room.on channel = some 0)
    (b : UInt8) (bs : List UInt8) : c.write channel (b :: bs) = (false, c) := by
  simp [write, h]

/-- It does not matter in which pieces bytes are written. -/
theorem write_append (c : Console) (channel : Channel) (xs ys : List UInt8) :
    c.write channel (xs ++ ys) =
      if (c.write channel xs).1 then (c.write channel xs).2.write channel ys
      else c.write channel xs := by
  induction xs generalizing c with
  | nil => simp
  | cons b bs ih =>
    by_cases h : c.room.on channel = some 0
    · simp [write_cons_of_full h]
    · simp [write, h, ih]

/-- The entries so far, oldest first, and the console with an empty journal. -/
def take (c : Console) : List Entry × Console :=
  (c.journal.reverse, { c with journal := [] })

end Console

/-- A stretch of the journal as it is shown. -/
inductive Event where
  /-- Bytes written to one channel with nothing in between. -/
  | wrote (channel : Channel) (bytes : List UInt8)
  /-- A note. -/
  | note (n : Note)
deriving DecidableEq, Repr

namespace Event

/-- Puts an entry in front of the events that follow it. -/
def cons : Entry → List Event → List Event
  | .note n, es => .note n :: es
  | .byte channel b, .wrote channel' bs :: es =>
    if channel = channel' then .wrote channel (b :: bs) :: es
    else .wrote channel [b] :: .wrote channel' bs :: es
  | .byte channel b, es => .wrote channel [b] :: es

/-- The events of a journal whose oldest entry comes first. -/
def ofEntries (entries : List Entry) : List Event :=
  entries.foldr cons []

end Event

/-- The bytes written to a channel, of a journal whose oldest entry comes first. -/
def bytesOn (channel : Channel) (entries : List Entry) : List UInt8 :=
  entries.filterMap fun
    | .byte c b => if c = channel then some b else none
    | .note _ => none

end LineScript
