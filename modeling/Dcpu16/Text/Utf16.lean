/-!
# UTF-16

Text is stored in memory as UTF-16: a character up to `0xFFFF` takes one word, any other a high
and a low surrogate.
-/

namespace Dcpu16.Text

def unitsOfChar (c : Char) : List UInt16 :=
  if c.toNat ≤ 0xFFFF then [c.toNat.toUInt16]
  else
    [(0xD800 + (c.toNat - 0x10000) / 0x400).toUInt16,
     (0xDC00 + (c.toNat - 0x10000) % 0x400).toUInt16]

def units (s : String) : List UInt16 :=
  s.toList.flatMap unitsOfChar

end Dcpu16.Text
