import Dcpu16.Proofs.Token.Numeral
import Dcpu16.Text.Hex

/-!
# Reading hexadecimal numerals back

Upper-case digits are looked up in a table, and a numeral is read from its most significant digit
on.  What `hex` prints is read back as the number it was printed from, and it has no digit more
than it needs.  Main statements: `isNumeral_hex`, `readHex?_hexByte`.
-/

namespace Dcpu16.Text

def hexValue? (c : Char) : Option Nat := Token.upperDigits.idxOf? c

/-- The number of which `n` are the digits so far and `c` is the next one. -/
def hexStep? (n : Nat) (c : Char) : Option Nat := (hexValue? c).map (16 * n + ·)

/-- The number that upper-case digits stand for, the most significant digit first. -/
def readHex? (digits : List Char) : Option Nat := digits.foldlM hexStep? 0

/-- Digits are the numeral of a number: there are at least `width` of them, and zeros stand in
front only as far as they are needed for that. -/
structure IsNumeral (width n : Nat) (digits : List Char) : Prop where
  value : readHex? digits = some n
  width_le : width ≤ digits.length
  tight : width < digits.length → digits.head? ≠ some '0'

/-! ## Digits -/

theorem hexValue?_hexDigit {d : Nat} (h : d < 16) : hexValue? (hexDigit d) = some d := by
  have hdigits : ∀ d : Fin 16, hexValue? (hexDigit d) = some d.val := by decide
  exact hdigits ⟨d, h⟩

theorem hexStep?_hexDigit {d : Nat} (h : d < 16) (n : Nat) :
    hexStep? n (hexDigit d) = some (16 * n + d) := by
  rw [hexStep?, hexValue?_hexDigit h]
  rfl

theorem hexDigit_ne_zero {d : Nat} (h : d < 16) (hd : d ≠ 0) : hexDigit d ≠ '0' := by
  intro hzero
  have hvalue := hexValue?_hexDigit h
  rw [hzero] at hvalue
  exact hd (Option.some.inj (hvalue.symm.trans (by decide)))

/-- A character that is not a digit does not stand among digits. -/
theorem ne_hexDigit {c : Char} (hc : hexValue? c = none) {d : Nat} (h : d < 16) :
    c ≠ hexDigit d := by
  rintro rfl
  rw [hexValue?_hexDigit h] at hc
  cases hc

/-! ## Numerals -/

/-- Behind the digits of `n` the reader goes on from `n`. -/
theorem foldlM_hexDigits (n : Nat) (tail : List Char) :
    (hexDigits n tail).foldlM hexStep? 0 = tail.foldlM hexStep? n := by
  induction n, tail using hexDigits.induct with
  | case1 n tail h =>
      rw [hexDigits, if_pos h, List.foldlM_cons, hexStep?_hexDigit h, Nat.mul_zero, Nat.zero_add]
      rfl
  | case2 n tail h ih =>
      rw [hexDigits, if_neg h, ih, List.foldlM_cons, hexStep?_hexDigit (Nat.mod_lt n (by decide)),
        Nat.div_add_mod]
      rfl

theorem foldlM_replicate_zero (k : Nat) (digits : List Char) :
    (List.replicate k '0' ++ digits).foldlM hexStep? 0 = digits.foldlM hexStep? 0 := by
  induction k with
  | zero => rfl
  | succ k ih => exact ih

theorem head?_hexDigits {n : Nat} (hn : n ≠ 0) (tail : List Char) :
    (hexDigits n tail).head? ≠ some '0' := by
  induction n, tail using hexDigits.induct with
  | case1 n tail h =>
      rw [hexDigits, if_pos h]
      exact fun hhead ↦ hexDigit_ne_zero h hn (Option.some.inj hhead)
  | case2 n tail h ih =>
      rw [hexDigits, if_neg h]
      exact ih (by omega)

/-- What is not a digit is found among the digits of a number only if it stands behind them. -/
theorem notMem_hexDigits {c : Char} (hc : hexValue? c = none) (n : Nat) {tail : List Char}
    (htail : c ∉ tail) : c ∉ hexDigits n tail := by
  induction n, tail using hexDigits.induct with
  | case1 n tail h =>
      rw [hexDigits, if_pos h]
      exact List.not_mem_cons_of_ne_of_not_mem (ne_hexDigit hc h) htail
  | case2 n tail h ih =>
      rw [hexDigits, if_neg h]
      exact ih (List.not_mem_cons_of_ne_of_not_mem (ne_hexDigit hc (Nat.mod_lt n (by decide)))
        htail)

/-- A number below a power of sixteen has so many digits at most. -/
theorem length_hexDigits_le {n k : Nat} (h : n < 16 ^ (k + 1)) (tail : List Char) :
    (hexDigits n tail).length ≤ k + 1 + tail.length := by
  induction n, tail using hexDigits.induct generalizing k with
  | case1 n tail hn =>
      rw [hexDigits, if_pos hn, List.length_cons]
      omega
  | case2 n tail hn ih =>
      -- a number of one digit is not cut any further
      cases k with
      | zero => exact absurd h hn
      | succ k =>
          have hlt : n / 16 < 16 ^ (k + 1) := by
            rw [Nat.pow_succ] at h
            exact Nat.div_lt_of_lt_mul (Nat.mul_comm _ 16 ▸ h)
          have hlength := ih hlt
          rw [List.length_cons] at hlength
          rw [hexDigits, if_neg hn]
          omega

/-- A printed number is read back, and is as long as it has to be. -/
theorem isNumeral_hex {width : Nat} (hwidth : 0 < width) (n : Nat) :
    IsNumeral width n (hex width n).toList := by
  rw [hex, String.toList_ofList, zeroPad]
  refine ⟨?_, ?_, ?_⟩
  · rw [readHex?, foldlM_replicate_zero, foldlM_hexDigits]
    rfl
  · rw [List.length_append, List.length_replicate]
    omega
  · intro hlong
    have hdigits : width < (hexDigits n []).length := by
      rw [List.length_append, List.length_replicate] at hlong
      omega
    rw [Nat.sub_eq_zero_of_le hdigits.le, List.replicate_zero, List.nil_append]
    refine head?_hexDigits ?_ []
    rintro rfl
    -- zero has one digit, which is not more than `width`
    rw [hexDigits, if_pos (by decide)] at hdigits
    exact absurd hdigits (Nat.not_lt.2 hwidth)

/-- A number that has no more digits than asked for is printed with as many as asked for. -/
theorem length_hex {k n : Nat} (h : n < 16 ^ (k + 1)) : (hex (k + 1) n).toList.length = k + 1 := by
  have hdigits := length_hexDigits_le h []
  rw [List.length_nil, Nat.add_zero] at hdigits
  rw [hex, String.toList_ofList, zeroPad, List.length_append, List.length_replicate]
  omega

/-- Nothing but digits is written. -/
theorem notMem_hex {c : Char} (hc : hexValue? c = none) (width n : Nat) :
    c ∉ (hex width n).toList := by
  have hzero : c ≠ '0' := ne_hexDigit hc (d := 0) (by decide)
  rw [hex, String.toList_ofList, zeroPad, List.mem_append, not_or]
  exact ⟨fun h ↦ hzero (List.eq_of_mem_replicate h), notMem_hexDigits hc n (by simp)⟩

/-! ## Bytes -/

theorem readHex?_hexByte (b : UInt8) : readHex? (hexByte b) = some b.toNat := by
  have hb := b.toNat_lt
  rw [readHex?, hexByte, List.foldlM_cons, hexStep?_hexDigit (by omega)]
  change (List.foldlM hexStep? _ _ : Option Nat) = _
  rw [List.foldlM_cons, hexStep?_hexDigit (Nat.mod_lt _ (by decide)), Nat.mul_zero, Nat.zero_add,
    Nat.div_add_mod]
  rfl

theorem notMem_hexByte {c : Char} (hc : hexValue? c = none) (b : UInt8) : c ∉ hexByte b := by
  have hb := b.toNat_lt
  refine List.not_mem_cons_of_ne_of_not_mem (ne_hexDigit hc (by omega)) ?_
  exact List.not_mem_cons_of_ne_of_not_mem (ne_hexDigit hc (Nat.mod_lt _ (by decide))) (by simp)

end Dcpu16.Text
