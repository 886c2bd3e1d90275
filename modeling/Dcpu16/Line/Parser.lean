import Dcpu16.Line
import Dcpu16.Token.Lexer

/-!
# Reading lines

```
line      ::= { ":" ident } [ statement ]
statement ::= basic operand "," operand | extended operand | "dat" [ item { "," item } [ "," ] ]
operand   ::= term | "[" term { "+" term } "]"
term      ::= number | char | ident
item      ::= number | char | text | ident
```

A sum in brackets has at most one register and at most one label and no special operand; its
constants are added up in sixteen bits. The readers work on the tokens of the line and return those
that they have not used.
-/

namespace Dcpu16

/-- The fault where one of the kinds `expected` must come next, which is not so. -/
def Fault.unexpected (expected : List Token.Kind) : List Lexeme → Fault
  | [] => { cause := .unexpectedToken .eol expected }
  | .error e :: _ => { cause := .lexical e }
  | .ok token :: _ => { cause := .unexpectedToken token.kind expected }

/-! ## Sums in brackets -/

/-- A sum of which some terms have been read. -/
structure BracketSum where
  /-- The register among the terms. -/
  register? : Option Register := none
  /-- The label among the terms. -/
  label? : Option String := none
  /-- The sum of the constants among the terms. -/
  offset : UInt16 := 0
  deriving DecidableEq

namespace BracketSum

/-- What the name of a term adds to a sum. -/
def addName (sum : BracketSum) (name : String) : Except ParseError BracketSum :=
  match Name.ofString name with
  | .register r =>
    if sum.register?.isSome then .error .duplicateRegister
    else .ok { sum with register? := some r }
  | .special _ => .error (.specialInBrackets name)
  | .label name =>
    if sum.label?.isSome then .error .duplicateLabel
    else .ok { sum with label? := some name }

def addTerm (sum : BracketSum) : Token → Except ParseError BracketSum
  | .number w | .char w => .ok { sum with offset := sum.offset + w }
  | .ident name => sum.addName name
  | token => .error (.unexpectedToken token.kind [.number, .char, .ident])

/-- The operand that a sum in brackets stands for. A register alone, or with constants that add up
to zero, needs no trailing word. -/
def operand (sum : BracketSum) : Operand String :=
  match sum.register? with
  | some r =>
    if sum.offset = 0 ∧ sum.label? = none then .indirect r
    else .indexed r ⟨sum.offset, sum.label?⟩
  | none => .absolute ⟨sum.offset, sum.label?⟩

/-- Reads the terms that follow in a sum and the bracket that closes it. -/
def parse (sum : BracketSum) : List Lexeme → Except Fault (Operand String × List Lexeme)
  | .ok token :: rest =>
    match sum.addTerm token with
    | .error cause => .error ⟨cause, sum.label?.toList⟩
    | .ok sum =>
      match rest with
      | .ok .plus :: rest => sum.parse rest
      | .ok .closeBracket :: rest => .ok (sum.operand, rest)
      | rest => .error ((Fault.unexpected [.plus, .closeBracket] rest).after sum.label?.toList)
  | rest => .error ((Fault.unexpected [.number, .char, .ident] rest).after sum.label?.toList)

end BracketSum

/-! ## Operands -/

/-- The operand that an identifier stands for. -/
def Operand.ofName (name : String) : Operand String :=
  match Name.ofString name with
  | .register r => .register r
  | .special s => .special s
  | .label name => .address name

def Operand.parse : List Lexeme → Except Fault (Operand String × List Lexeme)
  | .ok (.number w) :: rest => .ok (.literal ⟨w, none⟩, rest)
  | .ok (.char w) :: rest => .ok (.literal ⟨w, none⟩, rest)
  | .ok (.ident name) :: rest => .ok (.ofName name, rest)
  | .ok .openBracket :: rest => BracketSum.parse {} rest
  | rest => .error (.unexpected [.number, .char, .ident, .openBracket] rest)

/-! ## Data -/

/-- The item that a token stands for; the names of registers and special operands are none. -/
def Item.ofToken? : Token → Option (Item String)
  | .number w | .char w => some (.word w)
  | .text s => some (.text s)
  | .ident name =>
    match Name.ofString name with
    | .label name => some (.address name)
    | .register _ | .special _ => none
  | _ => none

/-- Reads the items that follow up to the end of the line and puts them behind those in `found`,
the last of which comes first. -/
def Item.parseFrom (found : List (Item String)) : List Lexeme → Except Fault (List (Item String))
  | [] => .ok found.reverse
  | .error e :: _ => .error ⟨.lexical e, found.reverse.filterMap Item.label?⟩
  | .ok token :: rest =>
    match Item.ofToken? token with
    | none => .error ⟨.nonConstantData, found.reverse.filterMap Item.label?⟩
    | some item =>
      match rest with
      | [] => .ok (item :: found).reverse
      | .ok .comma :: rest => Item.parseFrom (item :: found) rest
      | rest =>
        .error ((Fault.unexpected [.comma, .eol] rest).after
          ((item :: found).reverse.filterMap Item.label?))

/-! ## Statements -/

/-- Succeeds at the end of the line only. -/
def Line.parseEnd : List Lexeme → Except Fault Unit
  | [] => .ok ()
  | rest => .error (.unexpected [.eol] rest)

def Line.parseComma : List Lexeme → Except Fault (List Lexeme)
  | .ok .comma :: rest => .ok rest
  | rest => .error (.unexpected [.comma] rest)

/-- Reads the operands of a basic operation up to the end of the line. -/
def Instruction.parseBasic (op : BasicOp) (rest : List Lexeme) :
    Except Fault (Instruction String) := do
  let (a, rest) ← Operand.parse rest
  let b ← Except.mapError (Fault.after a.label?.toList) do
    let rest ← Line.parseComma rest
    let (b, rest) ← Operand.parse rest
    Except.mapError (Fault.after b.label?.toList) (Line.parseEnd rest)
    return b
  return .basic op a b

/-- Reads the operand of an extended operation up to the end of the line. -/
def Instruction.parseExtended (number : Fin 64) (rest : List Lexeme) :
    Except Fault (Instruction String) := do
  let (a, rest) ← Operand.parse rest
  Except.mapError (Fault.after a.label?.toList) (Line.parseEnd rest)
  return .extended number a

/-- Reads a statement behind the word that it starts with, which may have letters of any case. -/
def Statement.parse (command : String) (rest : List Lexeme) : Except Fault (Statement String) :=
  if command.toLower = "dat" then (Item.parseFrom [] rest).map .data
  else
    match OpCode.ofName? command with
    | some (.basic op) => (Instruction.parseBasic op rest).map .instruction
    | some (.extended number) => (Instruction.parseExtended number rest).map .instruction
    | none => .error { cause := .unknownCommand command.toLower }

/-! ## Lines -/

/-- Reads what follows the marks `marks` of a line, the last of which comes first. -/
def Line.parseFrom (marks : List String) : List Lexeme → Line
  | [] => ⟨marks.reverse, .ok none⟩
  | .ok .colon :: .ok (.ident name) :: rest => Line.parseFrom (name :: marks) rest
  | .ok .colon :: rest => ⟨marks.reverse, .error (.unexpected [.ident] rest)⟩
  | .ok (.ident command) :: rest => ⟨marks.reverse, (Statement.parse command rest).map some⟩
  | rest => ⟨marks.reverse, .error (.unexpected [.ident, .eol] rest)⟩

def Line.ofLexemes (lexemes : List Lexeme) : Line := Line.parseFrom [] lexemes

def Line.ofString (text : String) : Line := Line.ofLexemes (Token.scan text.toList)

end Dcpu16
