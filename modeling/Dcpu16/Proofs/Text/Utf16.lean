import Dcpu16.Text.Utf16

/-!
# Reading UTF-16

What words mean as UTF-16, apart from how texts are stored: a word outside the surrogates is the
character of that number, and a high surrogate stands in front of a low one, with ten bits of a
character from each of them.  A surrogate anywhere else makes the words no text.  Main statement:
`Text.decode_eq_some_iff`, by which a text is what its own units decode to, and no other words do.
-/

namespace Dcpu16.Text

/-- The characters that words mean, if they mean any. -/
def decode : List UInt16 → Option (List Char)
  | [] => some []
  | w :: ws =>
    if w.toNat < 0xD800 ∨ 0xDFFF < w.toNat then (decode ws).map (Char.ofNat w.toNat :: ·)
    else
      match ws with
      | [] => none
      | low :: ws =>
        if w.toNat < 0xDC00 ∧ 0xDC00 ≤ low.toNat ∧ low.toNat ≤ 0xDFFF then
          (decode ws).map
            (Char.ofNat (0x10000 + (w.toNat - 0xD800) * 0x400 + (low.toNat - 0xDC00)) :: ·)
        else none

/-- The numbers of characters. -/
theorem toNat_bounds (c : Char) : c.toNat < 0xD800 ∨ 0xDFFF < c.toNat ∧ c.toNat < 0x110000 :=
  c.valid

/-- A unit that is no surrogate is a character. -/
theorem decode_word {w : UInt16} (h : w.toNat < 0xD800 ∨ 0xDFFF < w.toNat) (ws : List UInt16) :
    decode (w :: ws) = (decode ws).map (Char.ofNat w.toNat :: ·) := by
  rw [decode.eq_def]
  exact if_pos h

/-- A pair of surrogates is one character. -/
theorem decode_pair {high low : UInt16} (hhigh : 0xD800 ≤ high.toNat ∧ high.toNat < 0xDC00)
    (hlow : 0xDC00 ≤ low.toNat ∧ low.toNat ≤ 0xDFFF) (ws : List UInt16) :
    decode (high :: low :: ws) = (decode ws).map
      (Char.ofNat (0x10000 + (high.toNat - 0xD800) * 0x400 + (low.toNat - 0xDC00)) :: ·) := by
  rw [decode, if_neg (by omega), if_pos (by omega)]

/-- The units of a character are read as the character, whatever follows. -/
theorem decode_append (c : Char) (ws : List UInt16) :
    decode (unitsOfChar c ++ ws) = (decode ws).map (c :: ·) := by
  have hbounds := toNat_bounds c
  have hword : ∀ {n : Nat}, n < 0x10000 → n.toUInt16.toNat = n := UInt16.toNat_ofNat_of_lt'
  rw [unitsOfChar]
  split
  · have hunit : c.toNat.toUInt16.toNat = c.toNat := hword (by omega)
    rw [List.singleton_append, decode_word (by omega), hunit, Char.ofNat_toNat]
  · have hhigh : (0xD800 + (c.toNat - 0x10000) / 0x400).toUInt16.toNat =
        0xD800 + (c.toNat - 0x10000) / 0x400 := hword (by omega)
    have hlow : (0xDC00 + (c.toNat - 0x10000) % 0x400).toUInt16.toNat =
        0xDC00 + (c.toNat - 0x10000) % 0x400 := hword (by omega)
    have hvalue : 0x10000 + (0xD800 + (c.toNat - 0x10000) / 0x400 - 0xD800) * 0x400 +
        (0xDC00 + (c.toNat - 0x10000) % 0x400 - 0xDC00) = c.toNat := by omega
    rw [List.cons_append, List.singleton_append, decode_pair (by omega) (by omega), hhigh, hlow,
      hvalue, Char.ofNat_toNat]

/-- The units of the character with a number. -/
theorem unitsOfChar_ofNat {n : Nat} (h : n < 0xD800 ∨ 0xDFFF < n ∧ n < 0x110000) :
    unitsOfChar (Char.ofNat n) =
      if n ≤ 0xFFFF then [n.toUInt16]
      else [(0xD800 + (n - 0x10000) / 0x400).toUInt16,
        (0xDC00 + (n - 0x10000) % 0x400).toUInt16] := by
  have hvalid : n.isValidChar := h
  rw [Char.ofNat, dif_pos hvalid]
  rfl

theorem unitsOfChar_word {w : UInt16} (h : w.toNat < 0xD800 ∨ 0xDFFF < w.toNat) :
    unitsOfChar (Char.ofNat w.toNat) = [w] := by
  have hlt := w.toNat_lt
  rw [unitsOfChar_ofNat (by omega), if_pos (by omega)]
  exact congrArg (fun w ↦ [w]) UInt16.ofNat_toNat

theorem unitsOfChar_pair {high low : UInt16} (hhigh : 0xD800 ≤ high.toNat ∧ high.toNat < 0xDC00)
    (hlow : 0xDC00 ≤ low.toNat ∧ low.toNat ≤ 0xDFFF) :
    unitsOfChar (Char.ofNat (0x10000 + (high.toNat - 0xD800) * 0x400 + (low.toNat - 0xDC00))) =
      [high, low] := by
  have hfirst : 0xD800 + (0x10000 + (high.toNat - 0xD800) * 0x400 + (low.toNat - 0xDC00) -
      0x10000) / 0x400 = high.toNat := by omega
  have hsecond : 0xDC00 + (0x10000 + (high.toNat - 0xD800) * 0x400 + (low.toNat - 0xDC00) -
      0x10000) % 0x400 = low.toNat := by omega
  rw [unitsOfChar_ofNat (by omega), if_neg (by omega), hfirst, hsecond]
  exact List.cons_eq_cons.mpr ⟨UInt16.ofNat_toNat, congrArg (fun w ↦ [w]) UInt16.ofNat_toNat⟩

/-- Words mean some characters exactly if they are the units of these. -/
theorem decode_eq_some_iff {ws : List UInt16} {cs : List Char} :
    decode ws = some cs ↔ ws = cs.flatMap unitsOfChar := by
  constructor
  · intro h
    fun_induction decode ws generalizing cs with
    | case1 =>
        obtain rfl := Option.some.inj h
        rfl
    | case2 w ws hw ih =>
        obtain ⟨cs, hcs, rfl⟩ := Option.map_eq_some_iff.mp h
        rw [List.flatMap_cons, unitsOfChar_word hw, ← ih hcs, List.singleton_append]
    | case3 => cases h
    | case4 w hw low ws hpair ih =>
        obtain ⟨cs, hcs, rfl⟩ := Option.map_eq_some_iff.mp h
        rw [List.flatMap_cons, unitsOfChar_pair (by omega) hpair.2, ← ih hcs]
        rfl
    | case5 => cases h
  · rintro rfl
    induction cs with
    | nil => rfl
    | cons c cs ih => rw [List.flatMap_cons, decode_append, ih, Option.map_some]

end Dcpu16.Text
