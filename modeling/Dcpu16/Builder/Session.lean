import Dcpu16.Builder

/-!
# Sessions

A session has several builders at work side by side. Their labels are known to the outside as
handles, numbered in the order in which they were defined, and a handle may be used with any
builder: one whose label is of another builder is refused as foreign.
-/

namespace Dcpu16

/-- Something to ask of a builder, with labels in `L`. -/
inductive Request (L : Type)
  /-- Define a label. -/
  | define
  /-- Give a label the address of the next word. -/
  | mark (label : L)
  /-- Tell the address of a label. -/
  | address (label : L)
  /-- Tell how many words depend on a label. -/
  | referenceCount (label : L)
  /-- Write an operation with two operands. -/
  | basic (op : OpCode) (left right : Operand L)
  /-- Write an operation with one operand. -/
  | extended (op : OpCode) (operand : Operand L)
  /-- Write a word a number of times. -/
  | word (w : UInt16) (count : Nat)
  /-- Write the address of a label. -/
  | addressWord (label : L)
  /-- Finish the image. -/
  | finish
  deriving DecidableEq

/-- Replaces the labels by the results of an action on them, from left to right. -/
def Request.mapM {L M : Type} {m : Type → Type} [Monad m] (f : L → m M) :
    Request L → m (Request M)
  | .define => pure .define
  | .mark label => do return .mark (← f label)
  | .address label => do return .address (← f label)
  | .referenceCount label => do return .referenceCount (← f label)
  | .basic op left right => do return .basic op (← left.mapM f) (← right.mapM f)
  | .extended op operand => do return .extended op (← operand.mapM f)
  | .word w count => pure (.word w count)
  | .addressWord label => do return .addressWord (← f label)
  | .finish => pure .finish

/-- What a builder answers, with labels in `L`. -/
inductive Reply (L : Type)
  /-- It is done. -/
  | done
  /-- The label that was defined. -/
  | label (label : L)
  /-- The address of a label, if it is marked. -/
  | address (address? : Option UInt16)
  /-- A number of words. -/
  | count (n : Nat)
  deriving DecidableEq

def Builder.answer (b : Builder) : Request Label → Except BuildError (Reply Label) × Builder
  | .define => let (r, b) := b.define; (r.map .label, b)
  | .mark label => let (r, b) := b.mark label; (r.map fun _ => .done, b)
  | .address label => ((b.address? label).map .address, b)
  | .referenceCount label => ((b.referenceCount label).map .count, b)
  | .basic op left right => let (r, b) := b.emitBasic op left right; (r.map fun _ => .done, b)
  | .extended op operand => let (r, b) := b.emitExtended op operand; (r.map fun _ => .done, b)
  | .word w count =>
    let (r, b) := b.emitCells (List.replicate count ⟨w, none⟩); (r.map fun _ => .done, b)
  | .addressWord label => let (r, b) := b.emitCell ⟨0, some label⟩; (r.map fun _ => .done, b)
  | .finish => let (r, b) := b.finish; (r.map fun _ => .done, b)

/-- Several builders at work side by side. -/
structure Session where
  /-- The builders in the order of their creation; `none` where one was taken away. -/
  builders : Array (Option Builder) := #[]
  /-- The labels of all builders, in the order of their definition. -/
  labels : Array Label := #[]
  /-- The identity of the next builder. -/
  nextId : UInt32 := 0
  /-- What has happened to the builders. -/
  journal : Array Event := #[]

namespace Session

/-- Adds a builder to a session and returns its number. Identities start again after 2³² of them. -/
def create (s : Session) : Nat × Session :=
  (s.builders.size,
   { s with builders := s.builders.push (some { id := s.nextId }), nextId := s.nextId + 1 })

def builder? (s : Session) (number : Nat) : Option Builder := s.builders[number]?.join

/-- Keeps a builder in its place and moves its journal to that of the session. -/
def put (s : Session) (number : Nat) (b : Builder) : Session :=
  { s with
    builders := s.builders.setIfInBounds number (some { b with journal := #[] })
    journal := s.journal ++ b.journal }

/-- The answer to a request for the outside, where a label is known by its handle. -/
def publish (s : Session) : Reply Label → Reply Nat × Session
  | .done => (.done, s)
  | .label label => (.label s.labels.size, { s with labels := s.labels.push label })
  | .address address? => (.address address?, s)
  | .count n => (.count n, s)

/-- Asks something of the builder with a number. There is no answer if there is no such builder or
no such handle. -/
def ask (s : Session) (number : Nat) (request : Request Nat) :
    Option (Except BuildError (Reply Nat)) × Session :=
  match s.builder? number, request.mapM fun handle => s.labels[handle]? with
  | some b, some request =>
    let s := { s with builders := s.builders.setIfInBounds number none }
    match b.answer request with
    | (.ok reply, b) =>
      let (reply, s) := (s.put number b).publish reply
      (some (.ok reply), s)
    | (.error e, b) => (some (.error e), s.put number b)
  | _, _ => (none, s)

/-- Takes a builder away and returns the words that it has written. -/
def take (s : Session) (number : Nat) : Option (Array UInt16) × Session :=
  ((s.builder? number).map Builder.words,
   { s with builders := s.builders.setIfInBounds number none })

end Session

end Dcpu16
