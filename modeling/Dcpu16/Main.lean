import Dcpu16.Command.Run

/-!
# The command line

Connects `Dcpu16.Command` with the files, the standard output and the standard error of a process.
-/

namespace Dcpu16.Command

/-- The cause of a failure that the operating system reported. -/
def FileError.ofSystem : IO.Error → FileError
  | .noFileOrDirectory _ _ _ => .notFound
  | .inappropriateType _ 21 _ => .isDirectory
  | .inappropriateType _ _ _ => .notDirectory
  | e => .other (toString e)

/-- The result of an action that may fail. -/
def attempt {α : Type} (action : IO α) : IO (Except FileError α) := do
  match ← action.toBaseIO with
  | .ok a => return .ok a
  | .error e => return .error (.ofSystem e)

def Outcome.print (options : Options) (outcome : Outcome) : IO UInt32 := do
  IO.print outcome.stdout
  for line in outcome.stderr options.level do
    IO.eprintln line
  return outcome.exit.toUInt32

def perform (options : Options) : IO UInt32 := do
  let contents ← attempt (IO.FS.readBinFile options.input)
  let draft := Draft.ofInput options (contents >>= textOf)
  match draft.image? with
  | none => draft.stop.print options
  | some image =>
    let written ← attempt (IO.FS.writeBinFile options.outputPath (imageContents image))
    (draft.conclude options image written).print options

def usageText : String := "usage: dasm16 [-v]... [-d] [-x] [-o FILE] INPUT"

end Dcpu16.Command

open Dcpu16.Command in
/-- Assembles the source file that the arguments name. -/
def main (arguments : List String) : IO UInt32 := do
  match Options.ofArguments arguments with
  | .ok options => perform options
  | .error .version => IO.println versionText; return 0
  | .error .help => IO.println usageText; return 0
  | .error .usage => IO.eprintln usageText; return 1
