import Dcpu16.Text.Hex

/-!
# Operation codes

A word whose low four bits are not all zero is a basic operation with two operands, and these four
bits say which. In any other word bits 4 to 9 number an extended operation with one operand. Of
the extended operations only the one with number 1 has a name.
-/

namespace Dcpu16

/-- An operation with two operands. -/
inductive BasicOp
  | set | add | sub | mul | div | mod | shl | shr | and | bor | xor | ife | ifn | ifg | ifb
  deriving DecidableEq

namespace BasicOp

/-- Every basic operation, in the order of the codes. -/
def all : List BasicOp :=
  [.set, .add, .sub, .mul, .div, .mod, .shl, .shr, .and, .bor, .xor, .ife, .ifn, .ifg, .ifb]

/-- The four-bit code of a basic operation, which is never zero. -/
def code : BasicOp → Nat
  | .set => 0x1
  | .add => 0x2
  | .sub => 0x3
  | .mul => 0x4
  | .div => 0x5
  | .mod => 0x6
  | .shl => 0x7
  | .shr => 0x8
  | .and => 0x9
  | .bor => 0xA
  | .xor => 0xB
  | .ife => 0xC
  | .ifn => 0xD
  | .ifg => 0xE
  | .ifb => 0xF

/-- The lower-case mnemonic of a basic operation. -/
def name : BasicOp → String
  | .set => "set"
  | .add => "add"
  | .sub => "sub"
  | .mul => "mul"
  | .div => "div"
  | .mod => "mod"
  | .shl => "shl"
  | .shr => "shr"
  | .and => "and"
  | .bor => "bor"
  | .xor => "xor"
  | .ife => "ife"
  | .ifn => "ifn"
  | .ifg => "ifg"
  | .ifb => "ifb"

def ofCode? (n : Nat) : Option BasicOp :=
  all.find? fun op => op.code == n

/-- The codes of basic operations are not zero, which is what marks an extended operation. -/
theorem code_pos (op : BasicOp) : 0 < op.code := by
  cases op <;> decide

theorem code_lt (op : BasicOp) : op.code < 16 := by
  cases op <;> decide

/-- An operation can be told from its code. -/
@[simp] theorem ofCode?_code (op : BasicOp) : ofCode? op.code = some op := by
  cases op <;> rfl

@[simp] theorem ofCode?_zero : ofCode? 0 = none := rfl

end BasicOp

/-- An operation, with two operands or with one. -/
inductive OpCode
  /-- An operation with two operands. -/
  | basic (op : BasicOp)
  /-- The operation with one operand that has this number. -/
  | extended (number : Fin 64)
  deriving DecidableEq

namespace OpCode

def jsr : OpCode := .extended 1

/-- The bits of an instruction word that say which operation it is. -/
def code : OpCode → Nat
  | .basic op => op.code
  | .extended number => 16 * number.val

/-- The operation that the low ten bits of a word say. -/
def ofCode (n : Nat) : OpCode :=
  match BasicOp.ofCode? (n % 16) with
  | some op => .basic op
  | none => .extended (Fin.ofNat 64 (n / 16))

def isBasic : OpCode → Bool
  | .basic _ => true
  | .extended _ => false

/-- The operations that have a mnemonic, each with it. -/
def mnemonics : List (String × OpCode) :=
  BasicOp.all.map (fun op => (op.name, .basic op)) ++ [("jsr", jsr)]

/-- The operation of a mnemonic, whatever the case of its letters. -/
def ofName? (name : String) : Option OpCode :=
  (mnemonics.find? fun entry => entry.1 == name.toLower).map (·.2)

/-- An operation is printed as its mnemonic in upper case, or as its code if it has none. -/
def text (op : OpCode) : String :=
  match mnemonics.find? fun entry => entry.2 == op with
  | some (name, _) => name.toUpper
  | none => "0x" ++ Text.hex 3 op.code

@[simp] theorem ofCode_code (op : OpCode) : ofCode op.code = op := by
  cases op with
  | basic op => cases op <;> rfl
  | extended number =>
    have h : 16 * number.val % 16 = 0 := by omega
    simp only [ofCode, code, h, BasicOp.ofCode?_zero, OpCode.extended.injEq]
    ext
    simp

end OpCode

end Dcpu16
