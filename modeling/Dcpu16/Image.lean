import Dcpu16.Text.Hex

/-!
# Images as bytes

A word is stored as two bytes, the more significant one first. Bytes are shown as words in
hexadecimal; a last byte without partner counts as the more significant one of a word.
-/

namespace Dcpu16.Image

/-! ## Bytes -/

def wordBytes (w : UInt16) : List UInt8 := [(w >>> 8).toUInt8, w.toUInt8]

def bytes (words : List UInt16) : List UInt8 := words.flatMap wordBytes

@[simp] theorem bytes_nil : bytes [] = [] := rfl

@[simp] theorem bytes_cons (w : UInt16) (ws : List UInt16) :
    bytes (w :: ws) = wordBytes w ++ bytes ws := rfl

@[simp] theorem bytes_append (ws ws' : List UInt16) :
    bytes (ws ++ ws') = bytes ws ++ bytes ws' := by
  simp [bytes]

@[simp] theorem length_bytes (ws : List UInt16) : (bytes ws).length = 2 * ws.length := by
  induction ws with
  | nil => rfl
  | cons w ws ih => simp [wordBytes, ih]; omega

/-! ## Pieces of equal length -/

variable {α : Type}

theorem length_drop_lt {n : Nat} {xs : List α} (h : ¬(xs = [] ∨ n = 0)) :
    (xs.drop n).length < xs.length := by
  rw [not_or] at h
  have := List.length_pos_iff.2 h.1
  rw [List.length_drop]
  omega

/-- Cuts a list into pieces of `n` elements, the last of which may be shorter, and puts them behind
those in `found`, the last of which comes first. -/
def chunksFrom (n : Nat) (found : List (List α)) (xs : List α) : List (List α) :=
  if xs = [] ∨ n = 0 then found.reverse
  else chunksFrom n (xs.take n :: found) (xs.drop n)
termination_by xs.length
decreasing_by exact length_drop_lt (by assumption)

/-- Cuts a list into pieces of `n` elements, the last of which may be shorter. -/
def chunks (n : Nat) (xs : List α) : List (List α) := chunksFrom n [] xs

/-- Pieces that are collected in reverse are the pieces in order. -/
theorem chunksFrom_eq (n : Nat) (found : List (List α)) (xs : List α) :
    chunksFrom n found xs = found.reverse ++ chunks n xs := by
  unfold chunks
  induction hk : xs.length using Nat.strongRecOn generalizing found xs with
  | ind k ih =>
    rw [chunksFrom.eq_def n found, chunksFrom.eq_def n []]
    split
    · simp
    · next h =>
      have hlt := hk ▸ length_drop_lt h
      rw [ih _ hlt (xs.take n :: found) _ rfl, ih _ hlt [xs.take n] _ rfl]
      simp

@[simp] theorem chunks_nil (n : Nat) : chunks n ([] : List α) = [] := by
  rw [chunks, chunksFrom, if_pos (.inl rfl), List.reverse_nil]

/-- The first piece comes before the pieces of the rest. -/
theorem chunks_eq_cons {n : Nat} {xs : List α} (hn : n ≠ 0) (h : xs ≠ []) :
    chunks n xs = xs.take n :: chunks n (xs.drop n) := by
  rw [chunks, chunksFrom, if_neg (not_or.2 ⟨h, hn⟩), chunksFrom_eq]
  rfl

/-! ## Hexadecimal -/

/-- A word in four digits, from one or two bytes. -/
def hexWord (piece : List UInt8) : String :=
  String.ofList (Text.hexByte (piece.getD 0 0) ++ Text.hexByte (piece.getD 1 0))

/-- Bytes as words in four digits, with spaces between them. -/
def hexWords (bytes : List UInt8) : String :=
  " ".intercalate ((chunks 2 bytes).map hexWord)

/-- The largest number of bytes that can be held one behind the other. -/
def capacity : Nat := 0x7FFFFFFFFFFFFFFF

/-- A row of a hex dump: the address of its first word and `perRow` words, zero where there are no
bytes any more. -/
def hexRow (perRow : UInt64) (row : Nat) (piece : List UInt8) : String :=
  Text.hex 4 (row * perRow.toNat) ++ ": "
    ++ hexWords (piece ++ List.replicate (2 * perRow.toNat - piece.length) 0) ++ "\n"

/-- Bytes in rows of `perRow` words. There is no dump if the number of bytes in a row is zero or
does not fit in a machine word, and none of any bytes if they are more than can be held. -/
def hexDump (perRow : UInt64) (bytes : List UInt8) : Option String :=
  let size := 2 * perRow.toNat
  -- The product is checked: what is no machine word is no size.
  if size = 0 ∨ UInt64.size ≤ size then none
  -- The rows are padded one by one, so this matters only if there is one.
  else if bytes ≠ [] ∧ capacity < size then none
  else some (String.join
    ((chunks size bytes).zipIdx.map fun (piece, row) => hexRow perRow row piece))

end Dcpu16.Image
