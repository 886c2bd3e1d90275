import Dcpu16.Instruction
import Dcpu16.Journal

/-!
# Building an image

A builder writes the words of an image one after the other and keeps the labels that were defined
for it. A word that depends on a label is written at once with its constant part, and its address
is kept as a site of the label; when the builder is finished the address of each marked label is
added at each of its sites. After that nothing changes any more.

Every operation returns what it found and the builder after it. An operation that fails leaves the
builder as it was, except that `Builder.finish` does its work also where labels are not marked, and
then says so.
-/

namespace Dcpu16

/-- A handle on a label: the builder that it was defined for and its place there. -/
structure Label where
  /-- The identity of the builder. -/
  owner : UInt32
  /-- The place among the labels of the builder. -/
  index : Nat
  deriving DecidableEq

/-- What a builder knows about a label. -/
structure Slot where
  /-- The address of the label, once it is marked. -/
  address? : Option UInt16 := none
  /-- The addresses of the words that depend on the label. -/
  sites : Array Nat := #[]
  deriving DecidableEq

/-- Why a builder refuses to do something. -/
inductive BuildError
  /-- The builder is finished. -/
  | finished
  /-- The label has an address already. -/
  | alreadyMarked
  /-- The label was not defined for this builder. -/
  | foreignLabel
  /-- A basic operation was given one operand. -/
  | basicArity
  /-- An extended operation was given two operands. -/
  | extendedArity
  /-- The address of a label does not fit in a word. -/
  | addressOverflow (address : Nat)
  /-- So many labels have no address. -/
  | unmarkedLabels (count : Nat)
  deriving DecidableEq

def BuildError.message : BuildError → String
  | .finished => "Code generation was finished."
  | .alreadyMarked => "Label already marked another position."
  | .foreignLabel => "Label must be defined in this generator."
  | .basicArity => "Basic opcodes take exactly 2 arguments."
  | .extendedArity => "Non-basic opcodes take exactly 1 argument."
  | .addressOverflow address =>
    "Word address 0x" ++ Text.hex 1 address ++ " doesn't fit in 16 bits."
  | .unmarkedLabels count => toString count ++ " label(s) didn't mark any position."

/-- The image built so far and the labels that were defined for it. -/
structure Builder where
  /-- What tells the labels of this builder from those of others. -/
  id : UInt32
  /-- The words written so far. -/
  words : Array UInt16 := #[]
  /-- The labels in the order of their definition. -/
  slots : Array Slot := #[]
  /-- Whether the builder is finished. -/
  finished : Bool := false
  /-- What has happened. -/
  journal : Array Event := #[]

namespace Builder

/-! ## Labels -/

/-- What is known about a label, if it is one of this builder. -/
def slot? (b : Builder) (label : Label) : Option Slot :=
  if label.owner = b.id then b.slots[label.index]? else none

def owns (b : Builder) (label : Label) : Bool := (b.slot? label).isSome

def modifySlot (b : Builder) (label : Label) (f : Slot → Slot) : Builder :=
  { b with slots := b.slots.modify label.index f }

def note (b : Builder) (event : Event) : Builder :=
  { b with journal := b.journal.push event }

def define (b : Builder) : Except BuildError Label × Builder :=
  if b.finished then (.error .finished, b)
  else (.ok ⟨b.id, b.slots.size⟩, { b with slots := b.slots.push {} })

/-- Gives a label the address of the next word. -/
def mark (b : Builder) (label : Label) : Except BuildError Unit × Builder :=
  if b.finished then (.error .finished, b)
  else
    match b.slot? label with
    | none => (.error .foreignLabel, b)
    | some slot =>
      let address := b.words.size
      if slot.address?.isSome then (.error .alreadyMarked, b)
      else if 0xFFFF < address then (.error (.addressOverflow address), b)
      else
        (.ok (), b.modifySlot label fun slot => { slot with address? := some address.toUInt16 })

def address? (b : Builder) (label : Label) : Except BuildError (Option UInt16) :=
  match b.slot? label with
  | none => .error .foreignLabel
  | some slot => .ok slot.address?

def referenceCount (b : Builder) (label : Label) : Except BuildError Nat :=
  match b.slot? label with
  | none => .error .foreignLabel
  | some slot => .ok slot.sites.size

/-! ## Words -/

/-- Writes a word with its constant part; if it depends on a label, this is a site of the label. -/
def write (b : Builder) (cell : Cell Label) : Builder :=
  let site := b.words.size
  let b := { b with words := b.words.push cell.base }
  match cell.label? with
  | none => b
  | some label => b.modifySlot label fun slot => { slot with sites := slot.sites.push site }

/-- Writes a word that may depend on a label of this builder. -/
def emitCell (b : Builder) (cell : Cell Label) : Except BuildError Unit × Builder :=
  if b.finished then (.error .finished, b)
  else if cell.label?.all b.owns then (.ok (), b.write cell)
  else (.error .foreignLabel, b)

/-- Writes words up to the first that is refused. -/
def emitCells (b : Builder) : List (Cell Label) → Except BuildError Unit × Builder
  | [] => (.ok (), b)
  | cell :: cells =>
    match b.emitCell cell with
    | (.ok _, b) => b.emitCells cells
    | (.error e, b) => (.error e, b)

/-- Writes an instruction whose labels are all of this builder. -/
def emit (b : Builder) (i : Instruction Label) : Except BuildError Unit × Builder :=
  if b.finished then (.error .finished, b)
  else if i.labels.all b.owns then
    let event := Event.instruction b.words.size i.opCode i.word
    (.ok (), i.cells.foldl write (b.note event))
  else (.error .foreignLabel, b)

def emitBasic (b : Builder) (op : OpCode) (left right : Operand Label) :
    Except BuildError Unit × Builder :=
  match op with
  | .basic op => b.emit (.basic op left right)
  | .extended _ => (.error (if b.finished then .finished else .extendedArity), b)

def emitExtended (b : Builder) (op : OpCode) (operand : Operand Label) :
    Except BuildError Unit × Builder :=
  match op with
  | .extended number => b.emit (.extended number operand)
  | .basic _ => (.error (if b.finished then .finished else .basicArity), b)

/-! ## The end -/

/-- Adds an address to the word at a site. -/
def patch (address : UInt16) (b : Builder) (site : Nat) : Builder :=
  match b.words[site]? with
  | none => b
  | some word =>
    { b with
      words := b.words.setIfInBounds site (word + address)
      journal := b.journal.push (.patch site (word + address)) }

/-- Adds the address of a label, if it is marked, at all its sites. -/
def patchSlot (b : Builder) (slot : Slot) : Builder :=
  match slot.address? with
  | none => b
  | some address => slot.sites.foldl (patch address) b

def unmarkedCount (b : Builder) : Nat :=
  b.slots.countP fun slot => slot.address?.isNone

/-- Finishes the image: adds the address of each marked label at all its sites, and then complains
if there are labels without address. -/
def finish (b : Builder) : Except BuildError Unit × Builder :=
  if b.finished then (.error .finished, b)
  else
    let slots := b.slots
    let unmarked := b.unmarkedCount
    let b := slots.foldl patchSlot { b with finished := true }
    (if unmarked = 0 then .ok () else .error (.unmarkedLabels unmarked), b)

end Builder

end Dcpu16
