/-
# Script files

All that evaluation knows of the file system is what opening a path gives: the bytes of a file, a
directory, or the reason why there is neither.  A script is looked for under its own name and then
under its name in the library directory.
-/

import LineScript.ByteStream

namespace LineScript

/-- Why a path cannot be opened. -/
inductive OpenError where
  /-- Nothing has this path. -/
  | notFound
  /-- The path leads through something that is not a directory. -/
  | notDirectory
  /-- The path holds a null character. -/
  | nullInName
  /-- The path, or a name in it, has too many bytes. -/
  | tooLong
deriving DecidableEq, Repr

/-- The wording of the reason. -/
def OpenError.message : OpenError → Text
  | notFound => "No such file or directory (os error 2)".toList
  | notDirectory => "Not a directory (os error 20)".toList
  | nullInName => "file name contained an unexpected NUL byte".toList
  | tooLong => "File name too long (os error 36)".toList

/-- What can be opened. -/
inductive Content where
  /-- A file with its bytes. -/
  | file (bytes : List UInt8)
  /-- A directory. -/
  | directory
deriving DecidableEq, Repr

namespace Content

/-- The most bytes that one attempt to read a file shows. -/
def bufferSize : Nat := 8192

/-- The byte stream of an opened file.  A directory can be opened, and then fails to be read. -/
def stream : Content → ByteStream
  | file bytes => ⟨Fill.cut bufferSize bytes, none⟩
  | directory => ⟨[.failure "Is a directory (os error 21)".toList], none⟩

/-- The text as which a file is shown; a directory has none. -/
def text? : Content → Option Text
  | file bytes => some (Utf8.display bytes)
  | directory => none

end Content

/-- What opening each path gives. -/
abbrev Files := Text → Except OpenError Content

/-- The path of a name in a directory.  An absolute name is a path already. -/
def joinPath (dir name : Text) : Text :=
  if name.head? = some '/' then name
  else if dir = [] ∨ dir.getLast? = some '/' then dir ++ name
  else dir ++ '/' :: name

/-- The paths under which a script is looked for, in order. -/
def candidates (name : Text) (library : Option Text) : List Text :=
  name :: (library.map (joinPath · name)).toList

/-- The name of the library directory in the home directory. -/
def libraryName : Text := ".skicl".toList

/-- The library directory of a home directory. -/
def libraryOfHome (home : Option Text) : Option Text :=
  home.map (joinPath · libraryName)

end LineScript
