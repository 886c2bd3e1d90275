/-!
# Blank characters

Which characters may stand between two tokens without meaning anything: those with the Unicode
property `White_Space`. Main statement: the blanks of core are among them.
-/

namespace Dcpu16.Text

/-- The code points with the property `White_Space`, as inclusive ranges in increasing order. -/
def blankRanges : List (Nat × Nat) :=
  [(0x0009, 0x000D), (0x0020, 0x0020), (0x0085, 0x0085), (0x00A0, 0x00A0), (0x1680, 0x1680),
   (0x2000, 0x200A), (0x2028, 0x2029), (0x202F, 0x202F), (0x205F, 0x205F), (0x3000, 0x3000)]

def isBlank (c : Char) : Bool :=
  blankRanges.any fun (first, last) => first ≤ c.toNat && c.toNat ≤ last

/-- A character is blank exactly when its code point lies in one of the ranges. -/
theorem isBlank_iff {c : Char} :
    isBlank c ↔ ∃ r ∈ blankRanges, r.1 ≤ c.toNat ∧ c.toNat ≤ r.2 := by
  simp [isBlank, List.any_eq_true]

end Dcpu16.Text
