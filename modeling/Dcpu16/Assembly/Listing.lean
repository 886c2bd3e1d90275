import Dcpu16.Assembly.Report
import Dcpu16.Image
import Dcpu16.Text.Table

/-!
# Listings

A listing tells for each line of a source text which words of the output it gave. It is printed as
a table of line numbers, addresses, words and source text; a line that gave no words has no
address.
-/

namespace Dcpu16

/-- A line with its words. -/
structure ListingEntry where
  /-- The index of the line, counted from zero. -/
  index : Nat
  /-- The line. -/
  text : String
  /-- The address at which the line starts. -/
  start : Nat
  /-- The words of the line. -/
  words : List UInt16
  deriving DecidableEq

/-- The first and the next address of each line: a line starts where the one before it ends. -/
def Report.spans (report : Report) : List (Nat × Nat) :=
  (0 :: report.stops).zip report.stops

def Report.listing (report : Report) : List ListingEntry :=
  (report.lines.zipIdx.zip report.spans).map fun ((text, index), start, stop) =>
    ⟨index, text, start, (report.output.extract start stop).toList⟩

def ListingEntry.row (entry : ListingEntry) : Text.TableRow where
  cells :=
    [Text.padLeft 4 (toString (entry.index + 1)) ++ ":",
     if entry.words.isEmpty then "" else "0x" ++ Text.hex 4 entry.start ++ ":",
     Image.hexWords (Image.bytes entry.words)]
  last := entry.text

def ListingEntry.table (entries : List ListingEntry) : String :=
  Text.table 3 (entries.map ListingEntry.row)

end Dcpu16
