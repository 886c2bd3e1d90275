/-!
# Registers

The eight general-purpose registers, their three-bit codes and their names.
-/

namespace Dcpu16

inductive Register
  | a | b | c | x | y | z | i | j
  deriving DecidableEq

namespace Register

/-- Every register, in the order of the codes. -/
def all : List Register := [.a, .b, .c, .x, .y, .z, .i, .j]

def code : Register → Nat
  | .a => 0
  | .b => 1
  | .c => 2
  | .x => 3
  | .y => 4
  | .z => 5
  | .i => 6
  | .j => 7

/-- The lower-case name of a register. -/
def name : Register → String
  | .a => "a"
  | .b => "b"
  | .c => "c"
  | .x => "x"
  | .y => "y"
  | .z => "z"
  | .i => "i"
  | .j => "j"

/-- A register is printed as its name in upper case. -/
def text (r : Register) : String := r.name.toUpper

/-- The register of a name, whatever the case of its letters. -/
def ofName? (name : String) : Option Register :=
  all.find? fun r => r.name == name.toLower

/-- Why a number names no register. -/
inductive CodeError
  /-- The number is above seven. -/
  | outOfRange
  deriving DecidableEq

def CodeError.message : CodeError → String
  | .outOfRange => "registers may only have values from 0-7 inclusive"

def ofCode (n : Nat) : Except CodeError Register :=
  match all[n]? with
  | some r => .ok r
  | none => .error .outOfRange

theorem code_lt (r : Register) : r.code < 8 := by
  cases r <;> decide

/-- A register can be told from its code. -/
@[simp] theorem ofCode_code (r : Register) : ofCode r.code = .ok r := by
  cases r <;> rfl

end Register

end Dcpu16
