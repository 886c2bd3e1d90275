import Dcpu16.Assembly.Listing
import Dcpu16.Command.Disk
import Dcpu16.Command.Options

/-!
# Running the command

The command reads the source file, assembles it, prints what is asked for and writes the image. What
it prints and whether it writes depends on the options and on what reading and writing give:
`Draft.ofInput` is all that happens before the output file is touched, `Draft.conclude` what
follows. `run` puts both together on a disk.
-/

namespace Dcpu16.Command

def versionText : String := "dasm16 0.1.0"

/-- What a run of the command leaves behind, apart from files. -/
structure Outcome where
  /-- The exit status. -/
  exit : UInt8
  /-- What is printed. -/
  stdout : String
  /-- The messages of all levels. -/
  records : List Record

/-- The lines of the messages that are printed, where `threshold` is the least important level of
them. -/
def Outcome.stderr (threshold : Level) (outcome : Outcome) : List String :=
  (Record.upTo threshold outcome.records).flatMap fun r =>
    ("[" ++ r.level.name ++ "] " ++ r.message).splitOn "\n"

/-- The file to write to: the one that was asked for, or else the one beside the source file with
the extension `bin`. -/
def Options.outputPath (options : Options) : String :=
  options.output?.getD (Path.withExtension options.input "bin")

def Options.record (options : Options) : Record :=
  ⟨.debug, "Arguments:"
    ++ "\n\tVerbosity: " ++ options.level.name
    ++ "\n\tListing: " ++ toString options.listing
    ++ "\n\tHex dump: " ++ toString options.hexDump
    ++ "\n\tOutfile: " ++ options.output?.getD "None"
    ++ "\n\tInfile: " ++ options.input⟩

def issueRecord (issue : Issue) : Record :=
  match issue.severity with
  | .error => ⟨.error, issue.located⟩
  | .warning => ⟨.warn, issue.located⟩

/-- What a run has come to before the output file is touched. -/
structure Draft where
  /-- What is printed. -/
  stdout : String := ""
  /-- The messages so far. -/
  records : List Record
  /-- The image to be written, if all went well. -/
  image? : Option (Array UInt16) := none

namespace Draft

/-- What an assembled source text comes to. -/
def ofReport (options : Options) (report : Report) : Draft :=
  let listing := if options.listing then ListingEntry.table report.listing ++ "\n" else ""
  let records :=
    options.record :: report.journal.toList.map Event.record ++ report.issues.map issueRecord
  match report.image? with
  | none =>
    { stdout := listing
      records := records
        ++ [⟨.error, "Stopped assembly due to " ++ toString report.errorCount ++ " error(s)."⟩] }
  | some image =>
    { stdout := listing
        -- Rows of eight words can always be held.
        ++ (if options.hexDump then (Image.hexDump 8 (Image.bytes image.toList)).getD "" else "")
      records
      image? := some image }

/-- What the source file comes to. -/
def ofInput (options : Options) (input : Except FileError String) : Draft :=
  match input with
  | .error e =>
    { records := [options.record, ⟨.error, "fatal: unable to read input file `" ++ options.input
        ++ "`: " ++ e.message⟩] }
  | .ok source =>
    match assemble source with
    | .error e =>
      { records := [options.record,
          ⟨.error, "fatal: internal code generation error: " ++ e.message⟩] }
    | .ok report => ofReport options report

/-- What a run leaves behind that writes nothing. -/
def stop (draft : Draft) : Outcome :=
  ⟨1, draft.stdout, draft.records⟩

/-- What a run leaves behind that tried to write its image. -/
def conclude (draft : Draft) (options : Options) (image : Array UInt16)
    (written : Except FileError Unit) : Outcome :=
  match written with
  | .error e =>
    ⟨1, draft.stdout, draft.records ++ [⟨.error, "fatal: unable to write to output file `"
      ++ options.outputPath ++ "`: " ++ e.message⟩]⟩
  | .ok _ =>
    ⟨0, draft.stdout, draft.records ++ [⟨.info, "wrote " ++ toString image.size ++ " word(s) to `"
      ++ options.outputPath ++ "`"⟩]⟩

end Draft

def imageContents (image : Array UInt16) : ByteArray :=
  (Image.bytes image.toList).toByteArray

def run (options : Options) (disk : Disk) : Outcome × Disk :=
  let draft := Draft.ofInput options (disk.read options.input >>= textOf)
  match draft.image? with
  | none => (draft.stop, disk)
  | some image =>
    match disk.write options.outputPath (imageContents image) with
    | .error e => (draft.conclude options image (.error e), disk)
    | .ok disk => (draft.conclude options image (.ok ()), disk)

end Dcpu16.Command
