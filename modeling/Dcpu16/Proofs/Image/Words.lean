import Dcpu16.Image
import Mathlib.Data.List.Basic

/-!
# Words in bytes

The bytes of an image are read and changed in place: a word is found at the offset of its more
significant byte, and nothing is found or changed there unless both of its bytes are in the image.
In the bytes of a list of words the word with index `i` is at offset `2 * i` (`wordAt?_bytes`), so
that the words can be told from the bytes (`words?_bytes`).
-/

namespace Dcpu16.Image

/-- The word whose bytes start at an offset. -/
def wordAt? (bytes : List UInt8) (offset : Nat) : Option UInt16 := do
  let high ← bytes[offset]?
  let low ← bytes[offset + 1]?
  return (0x100 * high.toNat + low.toNat).toUInt16

/-- Puts a word in the place of two bytes that start at an offset. -/
def setWordAt? (bytes : List UInt8) (offset : Nat) (word : UInt16) : Option (List UInt8) :=
  if offset + 2 ≤ bytes.length then
    some (bytes.take offset ++ wordBytes word ++ bytes.drop (offset + 2))
  else none

/-- Adds an address to the word whose bytes start at an offset. -/
def patchAt? (address : UInt16) (bytes : List UInt8) (offset : Nat) : Option (List UInt8) := do
  let word ← wordAt? bytes offset
  setWordAt? bytes offset (word + address)

/-- The words of bytes, which there are if no byte is left over. -/
def words? (bytes : List UInt8) : Option (List UInt16) :=
  (chunks 2 bytes).mapM fun piece ↦ wordAt? piece 0

/-! ## Bytes of words -/

/-- A word is found again in its two bytes. -/
theorem toUInt16_wordBytes (w : UInt16) :
    (0x100 * (w >>> 8).toUInt8.toNat + w.toUInt8.toNat).toUInt16 = w := by
  have hhigh : (w >>> 8).toUInt8.toNat = w.toNat / 0x100 := by
    have := w.toNat_lt
    simp [Nat.shiftRight_eq_div_pow]
    omega
  have hlow : w.toUInt8.toNat = w.toNat % 0x100 := by simp
  apply UInt16.toNat_inj.mp
  rw [UInt16.toNat_ofNat', hhigh, hlow, Nat.div_add_mod, Nat.mod_eq_of_lt w.toNat_lt]

theorem getElem?_bytes_high (ws : List UInt16) (i : Nat) :
    (bytes ws)[2 * i]? = ws[i]?.map fun w : UInt16 ↦ (w >>> 8).toUInt8 := by
  induction ws generalizing i with
  | nil => rfl
  | cons w ws ih =>
      cases i with
      | zero => rfl
      | succ i => simpa [wordBytes, Nat.mul_add] using ih i

theorem getElem?_bytes_low (ws : List UInt16) (i : Nat) :
    (bytes ws)[2 * i + 1]? = ws[i]?.map UInt16.toUInt8 := by
  induction ws generalizing i with
  | nil => rfl
  | cons w ws ih =>
      cases i with
      | zero => rfl
      | succ i => simpa [wordBytes, Nat.mul_add] using ih i

/-- At an even offset of the bytes is a word. -/
theorem wordAt?_bytes (ws : List UInt16) (i : Nat) : wordAt? (bytes ws) (2 * i) = ws[i]? := by
  rw [wordAt?, getElem?_bytes_high, getElem?_bytes_low]
  cases ws[i]? with
  | none => rfl
  | some w => exact congrArg some (toUInt16_wordBytes w)

theorem take_bytes (ws : List UInt16) (i : Nat) :
    (bytes ws).take (2 * i) = bytes (ws.take i) := by
  induction ws generalizing i with
  | nil => simp
  | cons w ws ih =>
      cases i with
      | zero => rfl
      | succ i => simpa [wordBytes, Nat.mul_add] using ih i

theorem drop_bytes (ws : List UInt16) (i : Nat) :
    (bytes ws).drop (2 * i) = bytes (ws.drop i) := by
  induction ws generalizing i with
  | nil => simp
  | cons w ws ih =>
      cases i with
      | zero => rfl
      | succ i => simpa [wordBytes, Nat.mul_add] using ih i

/-- Writing a word in the bytes is writing it among the words. -/
theorem setWordAt?_bytes {ws : List UInt16} {i : Nat} (hi : i < ws.length) (w : UInt16) :
    setWordAt? (bytes ws) (2 * i) w = some (bytes (ws.set i w)) := by
  have hfits : 2 * i + 2 ≤ (bytes ws).length := by
    rw [length_bytes]
    omega
  rw [setWordAt?, if_pos hfits, take_bytes, show 2 * i + 2 = 2 * (i + 1) from rfl, drop_bytes,
    List.set_eq_take_cons_drop w hi, bytes_append, bytes_cons, List.append_assoc]

/-- Adding in place at an offset adds to the word that is there, and to no other. -/
theorem patchAt?_bytes {ws : List UInt16} {i : Nat} (hi : i < ws.length) (address : UInt16) :
    patchAt? address (bytes ws) (2 * i) = some (bytes (ws.modify i (· + address))) := by
  rw [patchAt?, wordAt?_bytes, List.getElem?_eq_getElem hi]
  change setWordAt? (bytes ws) (2 * i) (ws[i] + address) = _
  rw [setWordAt?_bytes hi, List.set_eq_take_cons_drop _ hi, List.modify_eq_take_cons_drop hi]

/-- The words can be told from the bytes. -/
theorem words?_bytes (ws : List UInt16) : words? (bytes ws) = some ws := by
  induction ws with
  | nil => simp [words?]
  | cons w ws ih =>
      have hchunks : chunks 2 (bytes (w :: ws)) = wordBytes w :: chunks 2 (bytes ws) :=
        chunks_eq_cons (by decide) (by simp [wordBytes])
      have hword : wordAt? (wordBytes w) 0 = some w := congrArg some (toUInt16_wordBytes w)
      rw [words?] at ih ⊢
      rw [hchunks, List.mapM_cons, hword, ih]
      rfl

end Dcpu16.Image
