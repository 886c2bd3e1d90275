import Dcpu16.Log
import Dcpu16.OpCode

/-!
# The journal

What happens while an image is built and a source text is assembled, and how a log tells it.
-/

namespace Dcpu16

/-- Something that happened. -/
inductive Event
  /-- An instruction with this first word was written at an address. -/
  | instruction (address : Nat) (op : OpCode) (word : UInt16)
  /-- A word that depends on a label got its final value. -/
  | patch (address : Nat) (word : UInt16)
  /-- The line with this index, counted from zero, was rejected. -/
  | rejected (line : Nat) (message : String)
  /-- A source text was assembled. -/
  | assembled (lines words errors warnings : Nat)
  deriving DecidableEq

/-- How a log tells an event. -/
def Event.record : Event → Record
  | .instruction address op word =>
    ⟨.trace, "0x" ++ Text.hex 4 address ++ ": " ++ op.text ++ " => 0x" ++ Text.hex 4 word.toNat⟩
  | .patch address word =>
    ⟨.trace, "patch 0x" ++ Text.hex 4 address ++ " <= 0x" ++ Text.hex 4 word.toNat⟩
  | .rejected line message =>
    ⟨.debug, "line " ++ toString (line + 1) ++ ": " ++ message⟩
  | .assembled lines words errors warnings =>
    ⟨.debug, "assembled " ++ toString lines ++ " line(s) into " ++ toString words ++ " word(s): "
      ++ toString errors ++ " error(s), " ++ toString warnings ++ " warning(s)"⟩

end Dcpu16
