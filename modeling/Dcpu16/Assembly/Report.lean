import Dcpu16.Assembly
import Dcpu16.Text.Lines

/-!
# Assembling a source text

The lines are assembled in order; one that is rejected is reported and the next is tried. At the
end each label that was never marked is an error and each marked one that nothing refers to is
worth a warning. There is an image if and only if there is no error.
-/

namespace Dcpu16

/-- Where the assembling of a source text stands. -/
structure Progress where
  /-- The image and the label names. -/
  assembly : Assembly := {}
  /-- The address at which each line ends and the next one starts. -/
  stops : Array Nat := #[]
  /-- What is wrong with the lines. -/
  issues : Array Issue := #[]

def Progress.addLine (progress : Progress) (line : String × Nat) : Progress :=
  let ⟨assembly, stops, issues⟩ := progress
  match (Assembly.addLine line.2 (Line.ofString line.1)).run.run assembly with
  | (.ok _, assembly) => ⟨assembly, stops.push assembly.builder.words.size, issues⟩
  | (.error e, ⟨builder, symbols⟩) =>
    let builder := builder.note (.rejected line.2 e.message)
    ⟨⟨builder, symbols⟩, stops.push builder.words.size,
      issues.push ⟨line.2, .error, e.message⟩⟩

def Progress.ofLines (lines : List String) : Progress :=
  lines.zipIdx.foldl Progress.addLine {}

structure Report where
  /-- The lines of the text. -/
  lines : List String
  /-- The address at which each line ends and the next one starts. -/
  stops : List Nat
  /-- What there is to say about the text, in the order in which it was found. -/
  issues : List Issue
  /-- All words that were written, whatever the issues. -/
  output : Array UInt16
  /-- What happened. -/
  journal : Array Event

namespace Report

def hasErrors (report : Report) : Bool := report.issues.any Issue.isError

def errorCount (report : Report) : Nat := report.issues.countP Issue.isError

/-- The image, if there are no errors. -/
def image? (report : Report) : Option (Array UInt16) :=
  if report.hasErrors then none else some report.output

end Report

/-- Whether an error only says that there are labels without address. -/
def BuildError.isUnmarkedLabels : BuildError → Bool
  | .unmarkedLabels _ => true
  | _ => false

/-- Finishes an image, where labels without address are no fault. -/
def Builder.close (b : Builder) : Except BuildError Builder :=
  match b.finish with
  | (.ok _, b) => .ok b
  | (.error e, b) => if e.isUnmarkedLabels then .ok b else .error e

def assemble (source : String) : Except BuildError Report := do
  let lines := Text.lines source
  let ⟨⟨builder, symbols⟩, stops, lineIssues⟩ := Progress.ofLines lines
  let symbolIssues ← Assembly.symbolIssues ⟨builder, symbols⟩
  let builder ← builder.close
  let issues := lineIssues.toList ++ symbolIssues
  let errors := issues.countP Issue.isError
  let summary := Event.assembled lines.length builder.words.size errors (issues.length - errors)
  return {
    lines
    stops := stops.toList
    issues
    output := builder.words
    journal := builder.journal.push summary }

end Dcpu16
