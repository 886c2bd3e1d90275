import Dcpu16.Token.Lexer
import Mathlib.Data.Nat.Digits.Defs

/-!
# Numerals

What numerals mean, apart from how they are read: a numeral is a list of digits, which may be any
number of them, and its value is the sum of the digits times powers of the radix.  The reader keeps
the value of the digits seen so far and gives up as soon as it is too large for a word.  As values
only grow, this is so exactly if the value of the whole numeral is too large.  Main statement:
`Token.Numeral.value?_eq_some_iff`.
-/

namespace Dcpu16.Token

/-- The digits in base sixteen, with small letters above nine. -/
def lowerDigits : List Char :=
  ['0', '1', '2', '3', '4', '5', '6', '7', '8', '9', 'a', 'b', 'c', 'd', 'e', 'f']

/-- The digits in base sixteen, with capital letters above nine. -/
def upperDigits : List Char :=
  ['0', '1', '2', '3', '4', '5', '6', '7', '8', '9', 'A', 'B', 'C', 'D', 'E', 'F']

/-- A character is the digit of a value in a radix, a letter of either case above nine. -/
structure IsDigit (radix : Nat) (c : Char) (d : Nat) : Prop where
  lt : d < radix
  spelled : lowerDigits[d]? = some c ∨ upperDigits[d]? = some c

namespace Numeral

/-- Digits are a numeral of a number in a radix.  There is at least one of them, and there may be
zeros in front. -/
def Denotes (radix : Nat) (digits : List Char) (n : Nat) : Prop :=
  digits ≠ [] ∧ ∃ values, List.Forall₂ (IsDigit radix) digits values ∧
    n = Nat.ofDigits radix values.reverse

/-! ## Digits -/

/-- Digits have their values, in letters of either case. -/
theorem digitValue?_eq_some_of_digits {c : Char} {d : Nat} (h : d < 16)
    (hc : lowerDigits[d]? = some c ∨ upperDigits[d]? = some c) : digitValue? c = some d := by
  have hdigits : ∀ d : Fin 16, digitValue? (lowerDigits[d]) = some d.val ∧
      digitValue? (upperDigits[d]) = some d.val := by
    decide
  obtain ⟨hlower, hupper⟩ := hdigits ⟨d, h⟩
  rcases hc with hc | hc
  · obtain ⟨_, rfl⟩ := List.getElem?_eq_some_iff.mp hc
    exact hlower
  · obtain ⟨_, rfl⟩ := List.getElem?_eq_some_iff.mp hc
    exact hupper

/-- Digits that follow each other in the order of characters are found by their distance. -/
theorem getElem?_of_range {digits : List Char} {first c : Char} {start count : Nat}
    (hdigits : ∀ k < count, digits[start + k]? = some (Char.ofNat (first.toNat + k)))
    (hfirst : first.toNat ≤ c.toNat) (hlast : c.toNat < first.toNat + count) :
    digits[c.toNat + start - first.toNat]? = some c := by
  obtain ⟨k, hk⟩ := Nat.exists_eq_add_of_le hfirst
  have hplace : c.toNat + start - first.toNat = start + k := by omega
  rw [hplace, hdigits k (by omega), ← hk, Char.ofNat_toNat]

theorem digits_of_digitValue? {c : Char} {d : Nat} (h : digitValue? c = some d) :
    d < 16 ∧ (lowerDigits[d]? = some c ∨ upperDigits[d]? = some c) := by
  have hdecimal : ∀ k < 10, lowerDigits[0 + k]? = some (Char.ofNat ('0'.toNat + k)) := by decide
  have hlower : ∀ k < 6, lowerDigits[10 + k]? = some (Char.ofNat ('a'.toNat + k)) := by decide
  have hupper : ∀ k < 6, upperDigits[10 + k]? = some (Char.ofNat ('A'.toNat + k)) := by decide
  rw [digitValue?] at h
  split at h
  · next hrange =>
    obtain ⟨hfirst, hlast⟩ : 0x30 ≤ c.toNat ∧ c.toNat ≤ 0x39 := hrange
    obtain rfl := Option.some.inj h
    exact ⟨by omega, .inl (getElem?_of_range hdecimal hfirst (Nat.lt_succ_of_le hlast))⟩
  · split at h
    · next hrange =>
      obtain ⟨hfirst, hlast⟩ : 0x61 ≤ c.toNat ∧ c.toNat ≤ 0x66 := hrange
      have hvalue : c.toNat + 10 - 0x61 = d := by
        rw [← Option.some.inj h]
        omega
      have hget := getElem?_of_range hlower hfirst (Nat.lt_succ_of_le hlast)
      exact ⟨by omega, .inl (hvalue ▸ hget)⟩
    · split at h
      · next hrange =>
        obtain ⟨hfirst, hlast⟩ : 0x41 ≤ c.toNat ∧ c.toNat ≤ 0x46 := hrange
        have hvalue : c.toNat + 10 - 0x41 = d := by
          rw [← Option.some.inj h]
          omega
        have hget := getElem?_of_range hupper hfirst (Nat.lt_succ_of_le hlast)
        exact ⟨by omega, .inr (hvalue ▸ hget)⟩
      · cases h

/-- A digit is what the reader takes for one. -/
theorem isDigit_iff {radix : Nat} (hradix : radix ≤ 16) {c : Char} {d : Nat} :
    IsDigit radix c d ↔ digitValue? c = some d ∧ d < radix := by
  constructor
  · rintro ⟨hlt, hc⟩
    exact ⟨digitValue?_eq_some_of_digits (Nat.lt_of_lt_of_le hlt hradix) hc, hlt⟩
  · rintro ⟨hvalue, hlt⟩
    exact ⟨hlt, (digits_of_digitValue? hvalue).2⟩

/-! ## Values -/

def append (radix value digit : Nat) : Nat := value * radix + digit

/-- Appending digits makes no number smaller, so that an overflow is final. -/
theorem le_foldl_append {radix : Nat} (hradix : 0 < radix) (values : List Nat) (v : Nat) :
    v ≤ values.foldl (append radix) v := by
  induction values generalizing v with
  | nil => exact Nat.le_refl v
  | cons d values ih =>
      calc v ≤ v * radix := Nat.le_mul_of_pos_right v hradix
        _ ≤ append radix v d := Nat.le_add_right _ d
        _ ≤ values.foldl (append radix) (append radix v d) := ih _

/-- Digits from the left have the value of their number. -/
theorem foldl_append_eq (radix : Nat) (values : List Nat) :
    values.foldl (append radix) 0 = Nat.ofDigits radix values.reverse := by
  rw [Nat.ofDigits_eq_foldr, List.foldr_reverse]
  congr 1
  funext v d
  rw [append, Nat.cast_id, Nat.add_comm, Nat.mul_comm]

/-- A step of reading fails at what is no digit, and where the number does not fit in a word any
more. -/
theorem step?_eq_some_iff {radix : Nat} (hradix : radix ≤ 16) {v m : Nat} {c : Char} :
    step? radix v c = some m ↔ ∃ d, IsDigit radix c d ∧ m = append radix v d ∧ m < 0x10000 := by
  simp only [isDigit_iff hradix, append]
  constructor
  · intro h
    obtain ⟨d, hd, h⟩ := Option.bind_eq_some_iff.mp h
    obtain ⟨_, hlt, h⟩ := Option.bind_eq_some_iff.mp h
    obtain ⟨_, hfits, h⟩ := Option.bind_eq_some_iff.mp h
    obtain rfl := Option.some.inj h
    exact ⟨d, ⟨hd, (Option.guard_eq_some' _).mp hlt⟩, rfl, (Option.guard_eq_some' _).mp hfits⟩
  · rintro ⟨d, ⟨hd, hlt⟩, rfl, hfits⟩
    simp [step?, hd, guard, hlt, hfits]

/-- Reading digits one after the other gives the value of all of them, if it fits in a word. -/
theorem foldlM_step?_iff {radix : Nat} (hpos : 0 < radix) (hradix : radix ≤ 16)
    {digits : List Char} {v n : Nat} (hv : v < 0x10000) :
    digits.foldlM (step? radix) v = some n ↔
      ∃ values, List.Forall₂ (IsDigit radix) digits values ∧
        n = values.foldl (append radix) v ∧ n < 0x10000 := by
  induction digits generalizing v with
  | nil =>
      constructor
      · intro h
        obtain rfl := Option.some.inj h
        exact ⟨[], .nil, rfl, hv⟩
      · rintro ⟨values, hvalues, rfl, -⟩
        cases hvalues
        rfl
  | cons c digits ih =>
      rw [List.foldlM_cons]
      constructor
      · intro h
        obtain ⟨m, hm, hrest⟩ := Option.bind_eq_some_iff.mp h
        obtain ⟨d, hd, rfl, hlt⟩ := (step?_eq_some_iff hradix).mp hm
        obtain ⟨values, hvalues, hn, hfits⟩ := (ih hlt).mp hrest
        exact ⟨d :: values, .cons hd hvalues, hn, hfits⟩
      · rintro ⟨values, hvalues, hn, hfits⟩
        cases hvalues with
        | @cons _ d _ values hd hvalues =>
            have hlt : append radix v d < 0x10000 :=
              Nat.lt_of_le_of_lt (le_foldl_append hpos values _) (hn ▸ hfits)
            refine Option.bind_eq_some_iff.mpr ⟨append radix v d, ?_, ?_⟩
            · exact (step?_eq_some_iff hradix).mpr ⟨d, hd, rfl, hlt⟩
            · exact (ih hlt).mpr ⟨values, hvalues, hn, hfits⟩

/-- A literal has a value exactly if it is a numeral of a number that fits in a word. -/
theorem value?_eq_some_iff {radix : Nat} (hpos : 0 < radix) (hradix : radix ≤ 16)
    {digits : List Char} {n : Nat} :
    (⟨radix, digits⟩ : Numeral).value? = some n ↔ Denotes radix digits n ∧ n < 0x10000 := by
  rw [value?, Denotes]
  cases digits with
  | nil => simp
  | cons c digits =>
      simp only [List.isEmpty_cons, Bool.false_eq_true, ↓reduceIte,
        foldlM_step?_iff hpos hradix (Nat.zero_lt_succ _), foldl_append_eq]
      constructor
      · rintro ⟨values, hvalues, hn, hfits⟩
        exact ⟨⟨List.cons_ne_nil c digits, values, hvalues, hn⟩, hfits⟩
      · rintro ⟨⟨-, values, hvalues, hn⟩, hfits⟩
        exact ⟨values, hvalues, hn, hfits⟩

end Numeral

end Dcpu16.Token
