/-!
# Tokens

What a line of source text is made of, and what can be wrong with its spelling. The end of a line
is no token; `Token.Kind` has a name for it because diagnostics speak of it.
-/

namespace Dcpu16

inductive Token
  /-- A numeric literal. -/
  | number (w : UInt16)
  /-- An identifier, the case of its letters kept. -/
  | ident (name : String)
  /-- A character literal. -/
  | char (w : UInt16)
  /-- A string literal, its escapes resolved. -/
  | text (s : String)
  | comma
  | colon
  | plus
  | openBracket
  | closeBracket
  deriving DecidableEq

namespace Token

/-- What diagnostics tell about a token, or about the end of the line. -/
inductive Kind
  | number | ident | char | text | comma | colon | plus | openBracket | closeBracket | eol
  deriving DecidableEq

namespace Kind

def all : List Kind :=
  [.number, .ident, .char, .text, .comma, .colon, .plus, .openBracket, .closeBracket, .eol]

/-- How diagnostics call a kind of token. -/
def name : Kind → String
  | .number => "Number"
  | .ident => "ID"
  | .char => "Char"
  | .text => "String"
  | .comma => "Comma"
  | .colon => "Colon"
  | .plus => "Plus"
  | .openBracket => "OpenBracket"
  | .closeBracket => "CloseBracket"
  | .eol => "Eol"

def quoted (kind : Kind) : String := "'" ++ kind.name ++ "'"

/-- The alternatives in quotes, with "or" before the last and commas between the others. -/
def alternatives : List Kind → String
  | [] => ""
  | [kind] => kind.quoted
  | [kind, last] => kind.quoted ++ " or " ++ last.quoted
  | kind :: kinds => kind.quoted ++ ", " ++ alternatives kinds

end Kind

def kind : Token → Kind
  | .number _ => .number
  | .ident _ => .ident
  | .char _ => .char
  | .text _ => .text
  | .comma => .comma
  | .colon => .colon
  | .plus => .plus
  | .openBracket => .openBracket
  | .closeBracket => .closeBracket

/-- The end of the line is not a token. -/
theorem kind_ne_eol (t : Token) : t.kind ≠ .eol := by
  cases t <;> simp [kind]

end Token

/-- What can be wrong with the spelling of a token. -/
inductive LexError
  /-- The line ends where a literal needs another character. -/
  | unexpectedEol
  /-- A backslash before a character that has no escape. -/
  | badEscape (c : Char)
  /-- A numeric literal with a wrong digit, with no digit, or too large for a word. -/
  | invalidNumber (literal : String)
  /-- A character literal that is not closed after one character. -/
  | unterminatedChar
  /-- A string literal that is not closed. -/
  | unterminatedString
  /-- A character that starts no token. -/
  | unexpectedChar (c : Char)
  /-- A character literal that is too large for a word. -/
  | charOutOfRange (c : Char)
  deriving DecidableEq

def LexError.message : LexError → String
  | .unexpectedEol => "Unexpected end of line."
  | .badEscape c => "Unexpected escaped character '\\" ++ c.toString ++ "'."
  | .invalidNumber literal => "Invalid numeric literal '" ++ literal ++ "'."
  | .unterminatedChar => "End of character literal (') expected."
  | .unterminatedString => "End of string literal (\") expected."
  | .unexpectedChar c => "Unexpected character '" ++ c.toString ++ "'."
  | .charOutOfRange c => "Character '" ++ c.toString ++ "' doesn't fit in a word."

/-- A token, or what is wrong where one should be. -/
abbrev Lexeme := Except LexError Token

end Dcpu16
