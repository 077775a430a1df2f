/-
# A tree of files

A concrete file system: the files that were put into it, and the directories made on the way to
them.  Of the directories above the working directory, and of the root, nothing else is known.

A path is walked name by name.  Empty names and `.` stay in place and `..` goes up, but all of
them, like every other name, need a directory to start from.  Putting a file walks the same way,
so a file whose path goes down and up again leaves behind the directory that it went through.
-/

import LineScript.Files

namespace LineScript

/-- The names of a path, which slashes separate. -/
def pathNames : Text → List Text
  | [] => [[]]
  | c :: cs =>
    if c = '/' then [] :: pathNames cs
    else
      match pathNames cs with
      | [] => [[c]]
      | name :: names => (c :: name) :: names

/-- The most bytes of a path that can be opened. -/
def pathLimit : Nat := 4095

/-- The most bytes of one name of a path. -/
def nameLimit : Nat := 255

/-- The number of bytes of a text. -/
def byteLength (t : Text) : Nat :=
  (Utf8.encode t).length

/-- A directory that is always there. -/
inductive Base where
  /-- The root of the file system. -/
  | root
  /-- The directory so many levels above the working directory. -/
  | above (levels : Nat)
deriving DecidableEq, Repr

/-- The directory above; the root is above itself. -/
def Base.parent : Base → Base
  | root => root
  | above levels => above (levels + 1)

/-- A place where a file or a directory can be. -/
structure Place where
  /-- Where the way to the place starts. -/
  base : Base
  /-- The names on the way, the last one first. -/
  names : List Text
deriving DecidableEq, Repr

namespace Place

/-- Where the walk along a path starts. -/
def start (path : Text) : Place :=
  ⟨if path.head? = some '/' then .root else .above 0, []⟩

/-- The directory that holds a place. -/
def parent : Place → Place
  | ⟨base, []⟩ => ⟨base.parent, []⟩
  | ⟨base, _ :: names⟩ => ⟨base, names⟩

/-- The place to which a name leads from a directory. -/
def next (p : Place) (name : Text) : Place :=
  if name = [] ∨ name = ['.'] then p
  else if name = ['.', '.'] then p.parent
  else ⟨p.base, name :: p.names⟩

end Place

/-- Files and the directories that hold them. -/
structure FileTree where
  /-- What has been put at each place, the latest first. -/
  entries : List (Place × Content)
deriving DecidableEq, Repr

namespace FileTree

/-- The tree without files. -/
def empty : FileTree := ⟨[]⟩

/-- What is at a place. -/
def at? (t : FileTree) (p : Place) : Option Content :=
  if p.names = [] then some .directory else t.entries.lookup p

/-- Makes a directory, unless there is something at its place already. -/
def makeDirectory (t : FileTree) (p : Place) : FileTree :=
  if (t.at? p).isSome then t else ⟨(p, .directory) :: t.entries⟩

/-- Makes the directories that some names lead through; also gives the place they lead to. -/
def makeWay (t : FileTree) (p : Place) : List Text → FileTree × Place
  | [] => (t, p)
  | name :: names => (t.makeDirectory (p.next name)).makeWay (p.next name) names

/-- Puts a file at the end of a path, in place of what was there. -/
def put (t : FileTree) (path : Text) (bytes : List UInt8) : FileTree :=
  let names := pathNames path
  let (t, p) := t.makeWay (.start path) names.dropLast
  ⟨(p.next (names.getLast?.getD []), .file bytes) :: t.entries⟩

/-- The tree of files with the given paths, put one after the other. -/
def ofPaths (files : List (Text × List UInt8)) : FileTree :=
  files.foldl (fun t (path, bytes) => t.put path bytes) empty

/-- What is at a place, or that nothing is. -/
def find (t : FileTree) (p : Place) : Except OpenError Content :=
  match t.at? p with
  | some content => .ok content
  | none => .error .notFound

/-- Follows one name of a path. -/
def follow (t : FileTree) (p : Place) (name : Text) : Except OpenError Place :=
  match t.find p with
  | .ok .directory => if nameLimit < byteLength name then .error .tooLong else .ok (p.next name)
  | .ok (.file _) => .error .notDirectory
  | .error e => .error e

/-- What opening a path gives. -/
def toFiles (t : FileTree) : Files := fun path =>
  if '\x00' ∈ path then .error .nullInName
  else if path = [] then .error .notFound
  else if pathLimit < byteLength path then .error .tooLong
  else
    match (pathNames path).foldlM t.follow (.start path) with
    | .ok p => t.find p
    | .error e => .error e

end FileTree
end LineScript
