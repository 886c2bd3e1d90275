import Dcpu16.OpCode
import Dcpu16.Operand

/-!
# Instructions

A basic instruction is the word `bbbbbbaaaaaaoooo` with the fields of its two operands, an
extended one the word `aaaaaaoooooo0000` with the field of its only operand. The trailing words of
the operands follow it in this order. The number of words depends on the instruction alone and not
on where labels stand.
-/

namespace Dcpu16

/-- An operation with its operands. -/
inductive Instruction (L : Type)
  /-- An operation with two operands. -/
  | basic (op : BasicOp) (a b : Operand L)
  /-- The operation with one operand that has this number. -/
  | extended (number : Fin 64) (a : Operand L)
  deriving DecidableEq

namespace Instruction

variable {L M : Type}

def opCode : Instruction L → OpCode
  | .basic op _ _ => .basic op
  | .extended number _ => .extended number

/-- The operands of an instruction, in the order in which they are written. -/
def operands : Instruction L → List (Operand L)
  | .basic _ a b => [a, b]
  | .extended _ a => [a]

def word : Instruction L → UInt16
  | .basic op a b => (op.code + 0x10 * a.field + 0x400 * b.field).toUInt16
  | .extended number a => (0x10 * number.val + 0x400 * a.field).toUInt16

def cells (instruction : Instruction L) : List (Cell L) :=
  ⟨instruction.word, none⟩ :: instruction.operands.filterMap Operand.trailing?

/-- The labels that the words of an instruction depend on. -/
def labels (instruction : Instruction L) : List L :=
  instruction.operands.filterMap Operand.label?

/-- Replaces the labels by the results of an action on them, from left to right. -/
def mapM {m : Type → Type} [Monad m] (f : L → m M) : Instruction L → m (Instruction M)
  | .basic op a b => do return .basic op (← a.mapM f) (← b.mapM f)
  | .extended number a => do return .extended number (← a.mapM f)

/-- No bit of the first word is lost to the width of a word. -/
theorem toNat_word_basic (op : BasicOp) (a b : Operand L) :
    (word (.basic op a b)).toNat = op.code + 0x10 * a.field + 0x400 * b.field := by
  have := op.code_lt
  have := a.field_lt
  have := b.field_lt
  simp only [word, UInt16.toNat_ofNat']
  omega

/-- No bit of the first word is lost to the width of a word. -/
theorem toNat_word_extended (number : Fin 64) (a : Operand L) :
    (word (.extended number a)).toNat = 0x10 * number.val + 0x400 * a.field := by
  have := number.isLt
  have := a.field_lt
  simp only [word, UInt16.toNat_ofNat']
  omega

end Instruction

end Dcpu16
