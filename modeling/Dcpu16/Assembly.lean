import Dcpu16.Builder
import Dcpu16.Issue
import Dcpu16.Line.Parser

/-!
# Assembling lines

An assembly is a builder with a table of the label names that were met so far. A name gets its
label when it is met for the first time, whether it is marked or mentioned, and also in a line that
is rejected later. A line is put into the image as a whole or not at all.
-/

namespace Dcpu16

/-- A label name that was met. -/
structure Symbol where
  /-- The name, the case of its letters kept. -/
  name : String
  /-- The label of that name. -/
  label : Label
  /-- The index of the line that marks the label. -/
  line? : Option Nat := none
  deriving DecidableEq

/-- An image with the label names that were met so far; the symbol of the label with index `i` has
the place `i`. -/
structure Assembly where
  /-- The image. -/
  builder : Builder := { id := 0 }
  /-- The label names in the order in which they were met. -/
  symbols : Array Symbol := #[]

/-- Why a line is rejected. -/
inductive LineError
  /-- The line cannot be read. -/
  | parse (e : ParseError)
  /-- The line marks a label that is marked already. -/
  | labelAlreadyMarked (name : String)
  /-- The builder refuses something. -/
  | build (e : BuildError)
  deriving DecidableEq

def LineError.message : LineError → String
  | .parse e => e.message
  | .labelAlreadyMarked name => "Label '" ++ name ++ "' already marked another position."
  | .build e => e.message

/-- Work on an assembly that a line asks for. What was done before a fault stays done. -/
abbrev LineM := ExceptT LineError (StateM Assembly)

namespace Assembly

def find? (a : Assembly) (name : String) : Option Symbol :=
  a.symbols.find? fun symbol => symbol.name == name

@[inline] def build {α : Type} (f : Builder → Except BuildError α × Builder) : LineM α :=
  fun ⟨builder, symbols⟩ =>
    match f builder with
    | (r, builder) => (r.mapError .build, ⟨builder, symbols⟩)

/-- The label of a name, which is defined if the name is new. -/
def intern (name : String) : LineM Label := fun a =>
  match a.find? name with
  | some symbol => (.ok symbol.label, a)
  | none =>
    let ⟨builder, symbols⟩ := a
    match builder.define with
    | (.ok label, builder) => (.ok label, ⟨builder, symbols.push { name, label }⟩)
    | (.error e, builder) => (.error (.build e), ⟨builder, symbols⟩)

/-- Notes the line that marks a label. -/
def setLine (label : Label) (line : Nat) : LineM Unit :=
  fun ⟨builder, symbols⟩ =>
    (.ok (), ⟨builder, symbols.modify label.index fun symbol => { symbol with line? := some line }⟩)

/-- Marks the label of a name, on a line. -/
def mark (line : Nat) (name : String) : LineM Unit := do
  let label ← intern name
  let address? ← build fun b => (b.address? label, b)
  if address?.isSome then throw (.labelAlreadyMarked name)
  build fun b => b.mark label
  setLine label line

def emit (statement : Statement String) : LineM Unit := do
  match ← statement.mapM intern with
  | .instruction i => build fun b => b.emit i
  | .data items => build fun b => b.emitCells (items.flatMap Item.cells)

/-- Meets names without doing anything with them. -/
def meet (names : List String) : LineM Unit :=
  names.forM fun name => do
    let _ ← intern name

def addLine (index : Nat) (line : Line) : LineM Unit := do
  line.marks.forM (mark index)
  match line.body with
  | .ok none => pure ()
  | .ok (some statement) => emit statement
  | .error fault =>
    meet fault.mentioned
    throw (.parse fault.cause)

end Assembly

/-- What there is to say about a symbol once all lines have been assembled. -/
def Symbol.issue? (symbol : Symbol) (b : Builder) : Except BuildError (Option Issue) := do
  match ← b.address? symbol.label with
  | none =>
    return some ⟨0, .error, "Label '" ++ symbol.name ++ "' didn't mark any position."⟩
  | some _ =>
    if (← b.referenceCount symbol.label) = 0 then
      return some
        ⟨symbol.line?.getD 0, .warning,
          "Label '" ++ symbol.name ++ "' doesn't have any references."⟩
    else
      return none

/-- The issues of all symbols, in the order in which their names were met. -/
def Assembly.symbolIssues (a : Assembly) : Except BuildError (List Issue) := do
  let issues ← a.symbols.toList.mapM fun symbol => symbol.issue? a.builder
  return issues.filterMap id

end Dcpu16
