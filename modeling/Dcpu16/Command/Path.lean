/-!
# File names

A path is a text with slashes between its components.
-/

namespace Dcpu16.Command.Path

/-- Cuts a text behind the last character with a property. -/
def splitLast (p : Char → Bool) (cs : List Char) : List Char × List Char :=
  ((cs.reverse.dropWhile fun c => !p c).reverse, (cs.reverse.takeWhile fun c => !p c).reverse)

/-- A file name up to the dot before its extension. The extension is what follows the last dot,
unless this dot is the first character. -/
def cutExtension (name : List Char) : List Char :=
  match splitLast (· == '.') name with
  | ([], _) => name
  | (['.'], _) => name
  | (front, _) => front

/-- A file name without its extension and the dot before it. -/
def stem (name : List Char) : List Char :=
  match splitLast (· == '.') name with
  | ([], _) => name
  | (['.'], _) => name
  | (front, _) => front.dropLast

/-- Whether a component stands for a directory by its spelling alone. -/
def isDirectoryName (name : List Char) : Bool :=
  name == [] || name == ['.'] || name == ['.', '.']

/-- The path of the file beside the one at `path` that has another extension. The old extension is
cut off first; if `..` is left, as of `..a`, this is a directory, which takes no extension. -/
def withExtension (path : String) (extension : String) : String :=
  let (directory, name) := splitLast (· == '/') path.toList
  if isDirectoryName (cutExtension name) then String.ofList (directory ++ cutExtension name)
  else String.ofList (directory ++ stem name) ++ "." ++ extension

/-- The components of a path: what stands before, between and behind slashes, where it is not
empty. -/
def components (path : String) : List String :=
  ((path.toList.splitBy fun c d => (c == '/') == (d == '/')).filter fun run =>
    run.head? != some '/').map String.ofList

/-- Whether a path ends in a slash, as that of a directory may. -/
def endsInSlash (path : String) : Bool := path.toList.getLast? == some '/'

def isAbsolute (path : String) : Bool := path.toList.head? == some '/'

/-- Cutting loses nothing. -/
theorem splitLast_append (p : Char → Bool) (cs : List Char) :
    (splitLast p cs).1 ++ (splitLast p cs).2 = cs := by
  rw [splitLast, ← List.reverse_append, List.takeWhile_append_dropWhile, List.reverse_reverse]

end Dcpu16.Command.Path
