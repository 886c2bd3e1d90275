import Dcpu16.Instruction
import Dcpu16.Text.Utf16
import Dcpu16.Token

/-!
# Source lines

A line marks any number of labels and then holds at most one statement: an instruction, or data to
be stored as it is. A line that cannot be read still has the marks that stand before the fault, and
the labels mentioned before it count as mentioned.
-/

namespace Dcpu16

/-- One item of a data statement. -/
inductive Item (L : Type)
  /-- A word. -/
  | word (w : UInt16)
  /-- A text, stored as UTF-16. -/
  | text (s : String)
  /-- The address of a label. -/
  | address (l : L)
  deriving DecidableEq

namespace Item

variable {L M : Type}

def cells : Item L → List (Cell L)
  | .word w => [⟨w, none⟩]
  | .text s => (Text.units s).map fun w => ⟨w, none⟩
  | .address l => [⟨0, some l⟩]

def label? : Item L → Option L
  | .word _ | .text _ => none
  | .address l => some l

/-- Replaces the label by the result of an action on it. -/
def mapM {m : Type → Type} [Monad m] (f : L → m M) : Item L → m (Item M)
  | .word w => pure (.word w)
  | .text s => pure (.text s)
  | .address l => do return .address (← f l)

end Item

/-- What a line puts into the image. -/
inductive Statement (L : Type)
  /-- An instruction. -/
  | instruction (i : Instruction L)
  /-- Data. -/
  | data (items : List (Item L))
  deriving DecidableEq

namespace Statement

variable {L M : Type}

def cells : Statement L → List (Cell L)
  | .instruction i => i.cells
  | .data items => items.flatMap Item.cells

/-- The labels that a statement mentions, in the order in which they are written. -/
def labels : Statement L → List L
  | .instruction i => i.labels
  | .data items => items.filterMap Item.label?

/-- Replaces the labels by the results of an action on them, from left to right. -/
def mapM {m : Type → Type} [Monad m] (f : L → m M) : Statement L → m (Statement M)
  | .instruction i => do return .instruction (← i.mapM f)
  | .data items => do return .data (← items.mapM (Item.mapM f))

end Statement

/-! ## Faults -/

/-- Why a line cannot be read. -/
inductive ParseError
  /-- A token is spelled wrong. -/
  | lexical (e : LexError)
  /-- A token of one kind stands where only those of the other kinds can stand. -/
  | unexpectedToken (found : Token.Kind) (expected : List Token.Kind)
  /-- A statement starts with a word that is no mnemonic. -/
  | unknownCommand (name : String)
  /-- Data is neither a constant nor a label. -/
  | nonConstantData
  /-- A sum in brackets has two registers. -/
  | duplicateRegister
  /-- A sum in brackets has two labels. -/
  | duplicateLabel
  /-- A sum in brackets has a special operand. -/
  | specialInBrackets (name : String)
  deriving DecidableEq

def ParseError.message : ParseError → String
  | .lexical e => e.message
  | .unexpectedToken found expected =>
    "Unexpected token " ++ found.quoted ++ ", expected " ++ Token.Kind.alternatives expected ++ "."
  | .unknownCommand name => "Unknown command '" ++ name ++ "'."
  | .nonConstantData => "Arguments to data directive must be constant."
  | .duplicateRegister => "Indirect value supports only one register in expression."
  | .duplicateLabel => "Indirect value supports only one label in expression."
  | .specialInBrackets name => "'" ++ name ++ "' can't be used in an indirect expression."

/-- The fault of a statement that cannot be read. -/
structure Fault where
  /-- What is wrong. -/
  cause : ParseError
  /-- The labels mentioned before the fault, in the order in which they are written. -/
  mentioned : List String := []
  deriving DecidableEq

/-- A fault that comes after labels which have been mentioned already. -/
def Fault.after (labels : List String) (fault : Fault) : Fault :=
  { fault with mentioned := labels ++ fault.mentioned }

/-- A source line that has been read, up to its fault if it has one. -/
structure Line where
  /-- The labels marked in front of the statement. -/
  marks : List String
  /-- The statement, if there is one. -/
  body : Except Fault (Option (Statement String))

end Dcpu16
