import Dcpu16.Command.Path

/-!
# Files

A disk is what the command sees of the files around it: a tree of directories and files, in which
it works at one directory. A path starts there or, if its first character is a slash, at the root,
above which there is nothing. Besides, a disk may refuse to read or write a file for reasons that
the tree does not show, such as permissions or want of room. Reading and writing either succeed as
a whole or fail and change nothing.
-/

namespace Dcpu16.Command

/-- Why a file cannot be read or written. -/
inductive FileError
  /-- There is no such file, or no such directory on the way to it. -/
  | notFound
  /-- It is a directory. -/
  | isDirectory
  /-- A file stands where the path needs a directory. -/
  | notDirectory
  /-- The contents are no text. -/
  | notText
  /-- Anything else. -/
  | other (message : String)
  deriving DecidableEq

def FileError.message : FileError → String
  | .notFound => "No such file or directory (os error 2)"
  | .isDirectory => "Is a directory (os error 21)"
  | .notDirectory => "Not a directory (os error 20)"
  | .notText => "stream did not contain valid UTF-8"
  | .other message => message

/-- The place of a file or directory: the names on the way to it from the root. -/
abbrev Place := List String

structure Disk where
  /-- The working directory. -/
  home : Place := []
  /-- The other directories; those on the way to a file or directory need not be given. -/
  directories : List Place := []
  /-- The files with their contents. -/
  files : List (Place × ByteArray) := []
  /-- Why the file at a path may not be read, if it may not. -/
  readRefusal? : String → Option FileError := fun _ => none
  /-- Why contents may not be written to a path, if they may not. -/
  writeRefusal? : String → ByteArray → Option FileError := fun _ _ => none

namespace Disk

def contents? (disk : Disk) (place : Place) : Option ByteArray :=
  (disk.files.find? fun file => file.1 == place).map (·.2)

def isDirectory (disk : Disk) (place : Place) : Bool :=
  place.isPrefixOf disk.home || disk.directories.any (place.isPrefixOf ·)
    || disk.files.any fun file => place.isPrefixOf file.1 && place != file.1

/-- Follows the components of a path from a directory. All but the last must be directories; from
the root `..` leads to the root. -/
def walk (disk : Disk) (place : Place) : List String → Except FileError Place
  | [] => .ok place
  | name :: rest =>
    if name = "." then disk.walk place rest
    else if name = ".." then disk.walk place.dropLast rest
    else if rest.isEmpty then .ok (place ++ [name])
    else if disk.isDirectory (place ++ [name]) then disk.walk (place ++ [name]) rest
    else if (disk.contents? (place ++ [name])).isSome then .error .notDirectory
    else .error .notFound

/-- The place that a path leads to. The empty path leads nowhere. -/
def locate (disk : Disk) (path : String) : Except FileError Place :=
  if path.isEmpty then .error .notFound
  else disk.walk (if Path.isAbsolute path then [] else disk.home) (Path.components path)

def read (disk : Disk) (path : String) : Except FileError ByteArray := do
  if let some e := disk.readRefusal? path then throw e
  let place ← disk.locate path
  if disk.isDirectory place then throw .isDirectory
  match disk.contents? place with
  | none => throw .notFound
  | some contents =>
    if Path.endsInSlash path then throw .notDirectory
    return contents

def put (disk : Disk) (place : Place) (contents : ByteArray) : Disk :=
  if (disk.contents? place).isSome then
    { disk with
      files := disk.files.map fun file => if file.1 == place then (place, contents) else file }
  else
    { disk with files := disk.files ++ [(place, contents)] }

/-- Writes a file, which may be new. -/
def write (disk : Disk) (path : String) (contents : ByteArray) : Except FileError Disk := do
  if let some e := disk.writeRefusal? path contents then throw e
  let place ← disk.locate path
  if disk.isDirectory place ∨ Path.endsInSlash path then throw .isDirectory
  return disk.put place contents

/-- The files of `new` that are not on `old` or have other contents there. -/
def changes (old new : Disk) : List (Place × ByteArray) :=
  new.files.filter fun file => old.contents? file.1 != some file.2

end Disk

/-- The text that some contents are. -/
def textOf (contents : ByteArray) : Except FileError String :=
  match String.fromUTF8? contents with
  | some text => .ok text
  | none => .error .notText

end Dcpu16.Command
