import Dcpu16.Register

/-!
# Operands

An operand is a six-bit field of the instruction word, for some forms followed by one trailing
word:

```
0x00-0x07  register
0x08-0x0F  [register]
0x10-0x17  [trailing word + register]
0x18-0x1D  POP, PEEK, PUSH, SP, PC, O
0x1E       [trailing word]
0x1F       trailing word
0x20-0x3F  the value 0x00-0x1F
```

Operands are parametrised by the type `L` of the labels that their trailing words may depend on:
names while a line is read, handles while an image is built, `Empty` once all addresses are known.
-/

namespace Dcpu16

/-! ## Cells -/

/-- A word that may depend on a label: it holds `base`, plus the address of the label if there is
one. -/
structure Cell (L : Type) where
  /-- The constant part. -/
  base : UInt16
  /-- The label whose address is added. -/
  label? : Option L := none
  deriving DecidableEq

namespace Cell

variable {L M : Type}

/-- The value of a cell where the labels have the given addresses; a label without address adds
nothing. -/
def value (address? : L → Option UInt16) (cell : Cell L) : UInt16 :=
  match cell.label?.bind address? with
  | some address => cell.base + address
  | none => cell.base

/-- Replaces the label by the result of an action on it. -/
def mapM {m : Type → Type} [Monad m] (f : L → m M) (cell : Cell L) : m (Cell M) :=
  match cell.label? with
  | none => pure ⟨cell.base, none⟩
  | some l => do
    let l ← f l
    pure ⟨cell.base, some l⟩

/-- Whether a cell is a constant that fits in five bits. -/
def isShort (cell : Cell L) : Bool :=
  cell.label?.isNone && cell.base.toNat ≤ 0x1F

@[simp] theorem value_const (address? : L → Option UInt16) (w : UInt16) :
    (Cell.mk w none).value address? = w := rfl

end Cell

/-! ## Operands with a name of their own -/

/-- The operands that are written as a name and are not general-purpose registers. -/
inductive Special
  | pop | peek | push | sp | pc | o
  deriving DecidableEq

namespace Special

/-- Every special operand, in the order of the fields. -/
def all : List Special := [.pop, .peek, .push, .sp, .pc, .o]

def field : Special → Nat
  | .pop => 0x18
  | .peek => 0x19
  | .push => 0x1A
  | .sp => 0x1B
  | .pc => 0x1C
  | .o => 0x1D

/-- The lower-case name of a special operand. -/
def name : Special → String
  | .pop => "pop"
  | .peek => "peek"
  | .push => "push"
  | .sp => "sp"
  | .pc => "pc"
  | .o => "o"

/-- The special operand of a name, whatever the case of its letters. -/
def ofName? (name : String) : Option Special :=
  all.find? fun s => s.name == name.toLower

/-- The fields of special operands lie between those of other operands. -/
theorem field_bounds (s : Special) : 0x18 ≤ s.field ∧ s.field ≤ 0x1D := by
  cases s <;> decide

end Special

/-- What an identifier stands for among operands. -/
inductive Name
  /-- A general-purpose register. -/
  | register (r : Register)
  /-- A special operand. -/
  | special (s : Special)
  /-- A label of this name, the case of its letters kept. -/
  | label (name : String)
  deriving DecidableEq

/-- Registers and special operands are known whatever the case of their letters; every other
identifier is a label. -/
def Name.ofString (s : String) : Name :=
  match Register.ofName? s with
  | some r => .register r
  | none =>
    match Special.ofName? s with
    | some p => .special p
    | none => .label s

/-! ## Operands -/

/-- An operand whose trailing word may depend on a label in `L`. -/
inductive Operand (L : Type)
  /-- A register, written `A`. -/
  | register (r : Register)
  /-- The word at the address in a register, written `[A]`. -/
  | indirect (r : Register)
  /-- The word at the sum of a cell and a register, written `[0x2000 + A]`. -/
  | indexed (r : Register) (cell : Cell L)
  /-- A special operand, written `PUSH`. -/
  | special (s : Special)
  /-- The word at the address in a cell, written `[0x1000]`. -/
  | absolute (cell : Cell L)
  /-- The value of a cell, written `0x30`. -/
  | literal (cell : Cell L)
  deriving DecidableEq

namespace Operand

variable {L M : Type}

def address (l : L) : Operand L := .literal ⟨0, some l⟩

def field : Operand L → Nat
  | .register r => r.code
  | .indirect r => 0x08 + r.code
  | .indexed r _ => 0x10 + r.code
  | .special s => s.field
  | .absolute _ => 0x1E
  | .literal cell => if cell.isShort then 0x20 + cell.base.toNat else 0x1F

def trailing? : Operand L → Option (Cell L)
  | .register _ | .indirect _ | .special _ => none
  | .indexed _ cell | .absolute cell => some cell
  | .literal cell => if cell.isShort then none else some cell

def label? (operand : Operand L) : Option L :=
  operand.trailing?.bind Cell.label?

/-- Replaces the label by the result of an action on it. -/
def mapM {m : Type → Type} [Monad m] (f : L → m M) : Operand L → m (Operand M)
  | .register r => pure (.register r)
  | .indirect r => pure (.indirect r)
  | .indexed r cell => do return .indexed r (← cell.mapM f)
  | .special s => pure (.special s)
  | .absolute cell => do return .absolute (← cell.mapM f)
  | .literal cell => do return .literal (← cell.mapM f)

/-- A field has six bits. -/
theorem field_lt (operand : Operand L) : operand.field < 64 := by
  cases operand with
  | register r => have := r.code_lt; simp only [field]; omega
  | indirect r => have := r.code_lt; simp only [field]; omega
  | indexed r _ => have := r.code_lt; simp only [field]; omega
  | special s => have := s.field_bounds; simp only [field]; omega
  | absolute _ => simp only [field]; omega
  | literal cell =>
    simp only [field]
    split
    · next h =>
      simp only [Cell.isShort, Bool.and_eq_true, decide_eq_true_eq] at h
      omega
    · decide

end Operand

end Dcpu16
