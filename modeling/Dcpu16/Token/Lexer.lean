import Dcpu16.Text.Blank
import Dcpu16.Token

/-!
# Reading tokens

`Token.read` takes one token off the front of the characters of a line and returns the characters
that it has not used, also when the spelling is wrong; `Token.scan` reads a whole line up to its
end or to the first wrong spelling. Main statements: what is left is a suffix of what there was,
and a shorter one unless the end of the line was read.
-/

namespace Dcpu16.Token

/-! ## Characters -/

def isIdentStart (c : Char) : Bool := c == '_' || c.isAlpha

def isIdentRest (c : Char) : Bool := isIdentStart c || c.isDigit

/-- The value of a digit, of either case above nine. -/
def digitValue? (c : Char) : Option Nat :=
  if '0' ≤ c ∧ c ≤ '9' then some (c.toNat - 0x30)
  else if 'a' ≤ c ∧ c ≤ 'f' then some (c.toNat - 0x57)
  else if 'A' ≤ c ∧ c ≤ 'F' then some (c.toNat - 0x37)
  else none

def isHexDigit (c : Char) : Bool := (digitValue? c).isSome

/-- The character that an escape stands for, given by what follows the backslash. -/
def unescape? : Char → Option Char
  | 'n' => some '\n'
  | 'r' => some '\r'
  | 't' => some '\t'
  | 'v' => some '\x0b'
  | '\\' => some '\\'
  | '\'' => some '\''
  | '"' => some '"'
  | _ => none

/-! ## Numbers -/

/-- A numeric literal as it is spelled. -/
structure Numeral where
  /-- Sixteen after `0x`, ten otherwise. -/
  radix : Nat
  /-- The digits, without `0x`. -/
  digits : List Char

namespace Numeral

/-- Appends a digit to a value, unless the digit is too large for the radix or the result for a
word. -/
def step? (radix value : Nat) (c : Char) : Option Nat := do
  let d ← digitValue? c
  guard (d < radix)
  guard (value * radix + d < 0x10000)
  return value * radix + d

def value? (numeral : Numeral) : Option Nat :=
  if numeral.digits.isEmpty then none
  else numeral.digits.foldlM (step? numeral.radix) 0

def spelling (numeral : Numeral) : String :=
  if numeral.radix = 16 then "0x" ++ String.ofList numeral.digits
  else String.ofList numeral.digits

def token (numeral : Numeral) : Lexeme :=
  match numeral.value? with
  | some n => .ok (.number n.toUInt16)
  | none => .error (.invalidNumber numeral.spelling)

/-- Takes the literal off the front of a text whose first character is a decimal digit.
Letters that are digits in base sixteen belong to the literal in base ten too, so that `12ab` is
wrong and not the number `12` and a name. -/
def split : Char → List Char → Numeral × List Char
  | '0', 'x' :: rest => (⟨16, rest.takeWhile isHexDigit⟩, rest.dropWhile isHexDigit)
  | first, rest => (⟨10, first :: rest.takeWhile isHexDigit⟩, rest.dropWhile isHexDigit)

end Numeral

/-! ## Literals of characters -/

/-- Takes one character of a literal off the front of a text, resolving an escape. -/
def readChar : List Char → Except LexError Char × List Char
  | [] => (.error .unexpectedEol, [])
  | '\\' :: [] => (.error .unexpectedEol, [])
  | '\\' :: c :: rest =>
    match unescape? c with
    | some e => (.ok e, rest)
    | none => (.error (.badEscape c), rest)
  | c :: rest => (.ok c, rest)

/-- Reads a character literal behind its opening apostrophe. -/
def readQuoted (cs : List Char) : Lexeme × List Char :=
  match readChar cs with
  | (.error e, rest) => (.error e, rest)
  | (.ok c, '\'' :: rest) =>
    if c.toNat ≤ 0xFFFF then (.ok (.char c.toNat.toUInt16), rest)
    else (.error (.charOutOfRange c), rest)
  | (.ok _, rest) => (.error .unterminatedChar, rest)

/-- Reads a string literal behind its opening quote and the characters `found`, the last of them
first. -/
def readText (found : List Char) : List Char → Lexeme × List Char
  | [] => (.error .unterminatedString, [])
  | '"' :: rest => (.ok (.text (String.ofList found.reverse)), rest)
  | '\\' :: [] => (.error .unexpectedEol, [])
  | '\\' :: c :: rest =>
    match unescape? c with
    | some e => readText (e :: found) rest
    | none => (.error (.badEscape c), rest)
  | c :: rest => readText (c :: found) rest

/-! ## Tokens -/

/-- Reads the token that starts with the character `c`, which is not blank. -/
def readFrom (c : Char) (rest : List Char) : Lexeme × List Char :=
  if c.isDigit then
    let (numeral, rest) := Numeral.split c rest
    (numeral.token, rest)
  else if isIdentStart c then
    (.ok (.ident (String.ofList (c :: rest.takeWhile isIdentRest))), rest.dropWhile isIdentRest)
  else
    match c with
    | '\'' => readQuoted rest
    | '"' => readText [] rest
    | ',' => (.ok .comma, rest)
    | ':' => (.ok .colon, rest)
    | '+' => (.ok .plus, rest)
    | '[' => (.ok .openBracket, rest)
    | ']' => (.ok .closeBracket, rest)
    | c => (.error (.unexpectedChar c), rest)

/-- Reads the next token of a line, or `none` at its end. A semicolon and all that follows it is a
comment. -/
def read (cs : List Char) : Except LexError (Option Token) × List Char :=
  match cs.dropWhile Text.isBlank with
  | [] => (.ok none, [])
  | ';' :: _ => (.ok none, [])
  | c :: rest =>
    match readFrom c rest with
    | (lexeme, rest) => (lexeme.map some, rest)

/-! ## What is left -/

theorem Numeral.split_suffix (c : Char) (cs : List Char) : (Numeral.split c cs).2 <:+ cs := by
  unfold Numeral.split
  split
  · exact (List.dropWhile_suffix _).trans (List.suffix_cons _ _)
  · exact List.dropWhile_suffix _

theorem readChar_suffix (cs : List Char) : (readChar cs).2 <:+ cs := by
  unfold readChar
  split
  · exact List.suffix_refl _
  · exact List.nil_suffix
  · split <;> exact (List.suffix_cons _ _).trans (List.suffix_cons _ _)
  · exact List.suffix_cons _ _

theorem readQuoted_suffix (cs : List Char) : (readQuoted cs).2 <:+ cs := by
  have h := readChar_suffix cs
  unfold readQuoted
  split <;> rename_i heq <;> rw [heq] at h
  · exact h
  · split <;> exact (List.suffix_cons _ _).trans h
  · exact h

theorem readText_suffix (found cs : List Char) : (readText found cs).2 <:+ cs := by
  fun_induction readText found cs with
  | case1 => exact List.suffix_refl _
  | case2 => exact List.suffix_cons _ _
  | case3 => exact List.nil_suffix
  | case4 _ _ _ _ _ ih => exact ih.trans ((List.suffix_cons _ _).trans (List.suffix_cons _ _))
  | case5 => exact (List.suffix_cons _ _).trans (List.suffix_cons _ _)
  | case6 _ _ _ _ _ _ ih => exact ih.trans (List.suffix_cons _ _)

/-- Every token leaves a suffix of the text. -/
theorem readFrom_suffix (c : Char) (cs : List Char) : (readFrom c cs).2 <:+ cs := by
  unfold readFrom
  split
  · exact Numeral.split_suffix c cs
  · split
    · exact List.dropWhile_suffix _
    · split
      · exact readQuoted_suffix cs
      · exact readText_suffix [] cs
      all_goals exact List.suffix_refl _

/-- What is left after reading a token is a suffix of what there was. -/
theorem read_suffix (cs : List Char) : (read cs).2 <:+ cs := by
  have h := List.dropWhile_suffix Text.isBlank (l := cs)
  unfold read
  split <;> rename_i heq <;> rw [heq] at h
  · exact List.nil_suffix
  · exact List.nil_suffix
  · exact ((readFrom_suffix _ _).trans (List.suffix_cons _ _)).trans h

/-- Unless the end of the line was read, something was used. -/
theorem length_read_lt {cs : List Char} (h : (read cs).1 ≠ .ok none) :
    (read cs).2.length < cs.length := by
  have hd := (List.dropWhile_suffix Text.isBlank (l := cs)).length_le
  unfold read at h ⊢
  split at h <;> rename_i heq
  · exact absurd rfl h
  · exact absurd rfl h
  · rename_i c rest _
    rw [heq] at hd
    have hs := (readFrom_suffix c rest).length_le
    simp only [List.length_cons] at hd
    simp only
    omega

/-- Every token takes at least one character. -/
theorem length_lt_of_read_eq {cs rest : List Char} {token : Token}
    (h : read cs = (.ok (some token), rest)) : rest.length < cs.length := by
  have hlt := @length_read_lt cs (by simp [h])
  rwa [h] at hlt

/-! ## Lines -/

/-- Reads tokens up to the end of the line or the first wrong spelling and puts them behind those
in `found`, the last of which comes first. -/
def scanFrom (found : List Lexeme) (cs : List Char) : List Lexeme :=
  match _h : read cs with
  | (.ok none, _) => found.reverse
  | (.error e, _) => (.error e :: found).reverse
  | (.ok (some token), rest) => scanFrom (.ok token :: found) rest
termination_by cs.length
decreasing_by exact length_lt_of_read_eq _h

/-- The tokens of a line up to its end, or up to and including the first wrong spelling. -/
def scan (cs : List Char) : List Lexeme := scanFrom [] cs

/-- Tokens that are collected in reverse are the tokens in order. -/
theorem scanFrom_eq (found : List Lexeme) (cs : List Char) :
    scanFrom found cs = found.reverse ++ scan cs := by
  unfold scan
  induction hn : cs.length using Nat.strongRecOn generalizing found cs with
  | ind n ih =>
    rw [scanFrom, scanFrom]
    split
    · simp
    · simp
    · rename_i token rest h
      have hlt := length_lt_of_read_eq h
      rw [ih _ (hn ▸ hlt) (.ok token :: found) rest rfl, ih _ (hn ▸ hlt) [.ok token] rest rfl]
      simp

/-- A line is scanned one token after the other. -/
theorem scan_eq (cs : List Char) :
    scan cs = match read cs with
      | (.ok none, _) => []
      | (.error e, _) => [.error e]
      | (.ok (some token), rest) => .ok token :: scan rest := by
  rw [scan, scanFrom]
  split <;> rename_i h <;> simp only [h]
  · rfl
  · rfl
  · rw [scanFrom_eq]
    rfl

end Dcpu16.Token
