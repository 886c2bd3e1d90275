/-!
# Upper-case hexadecimal numerals

Numbers are printed in base sixteen with the digits `0` to `9` and `A` to `F`, padded on the left
with zeros up to a least width and never cut.
-/

namespace Dcpu16.Text

/-- The upper-case digit of a value below sixteen. -/
def hexDigit (d : Nat) : Char :=
  if d < 10 then Char.ofNat (0x30 + d) else Char.ofNat (0x37 + d)

/-- The digits of `n` in base sixteen, the most significant first, in front of `tail`; zero has
the one digit `0`. -/
def hexDigits (n : Nat) (tail : List Char) : List Char :=
  if n < 16 then hexDigit n :: tail
  else hexDigits (n / 16) (hexDigit (n % 16) :: tail)

/-- Puts zeros in front of `digits` until there are `width` of them. -/
def zeroPad (width : Nat) (digits : List Char) : List Char :=
  List.replicate (width - digits.length) '0' ++ digits

/-- The numeral of `n` in base sixteen with at least `width` digits. -/
def hex (width n : Nat) : String :=
  String.ofList (zeroPad width (hexDigits n []))

def hexByte (b : UInt8) : List Char :=
  [hexDigit (b.toNat / 16), hexDigit (b.toNat % 16)]

end Dcpu16.Text
