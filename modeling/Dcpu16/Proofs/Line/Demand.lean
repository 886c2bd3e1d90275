import Dcpu16.Proofs.Line.Grammar

/-!
# Reading on demand

The readers of a line take all tokens of the line and return those that they have not used.  Here
are readers that have no tokens to begin with and ask for one after the other: a token, the end of
the line or a wrong spelling is what they are given, and whatever they have not asked for cannot
have any influence on them.  They find out for each reader where it stops.

A reader on demand has the result of the reader that it stands for, and up to there it asks for
nothing behind the end of the line or a wrong spelling.  `Demand.Gives` says this of readers of a
part of the line, and `Demand.Closes` of those that always get to its end or to a fault.  Main
statement: `Demand.closes_statement`.
-/

namespace Dcpu16

/-- What asking for a token gives: a token, or `none` at the end of the line. -/
abbrev Reading := Except LexError (Option Token)

/-- The first readings of a line.  Behind its end there is nothing but its end. -/
def Token.readings : Nat → List Char → List Reading
  | 0, _ => []
  | n + 1, cs => (read cs).1 :: readings n (read cs).2

/-- The fault where one of the kinds `expected` must be read, which is not so. -/
def Fault.ofReading (expected : List Token.Kind) : Reading → Fault
  | .ok none => { cause := .unexpectedToken .eol expected }
  | .ok (some token) => { cause := .unexpectedToken token.kind expected }
  | .error e => { cause := .lexical e }

/-- A reader that is given what it asks for from a supply.  It returns the rest of the supply, or
nothing if it asks for more than there is. -/
def Demand (α : Type) : Type := List Reading → Option (Except Fault α × List Reading)

namespace Demand

variable {α β : Type}

/-- Reads one thing and then, if there was no fault, another. -/
def andThen (x : Demand α) (f : α → Demand β) : Demand β := fun supply ↦
  match x supply with
  | none => none
  | some (.error fault, rest) => some (.error fault, rest)
  | some (.ok a, rest) => f a rest

instance : Monad Demand where
  pure a := fun supply ↦ some (.ok a, supply)
  bind := andThen

/-! ## Readers -/

def next : Demand Reading := fun supply ↦
  match supply with
  | [] => none
  | reading :: rest => some (.ok reading, rest)

def fail (fault : Fault) : Demand α := fun supply ↦ some (.error fault, supply)

/-- Reads something behind labels which have been mentioned already. -/
def after (labels : List String) (x : Demand α) : Demand α := fun supply ↦
  (x supply).map fun (result, rest) ↦ (result.mapError (Fault.after labels), rest)

/-- Reads the terms that follow in a sum and the bracket that closes it. -/
def sum (sum : BracketSum) : List Reading → Option (Except Fault (Operand String) × List Reading)
  | [] => none
  | .ok (some token) :: rest =>
    match sum.addTerm token with
    | .error cause => some (.error ⟨cause, sum.label?.toList⟩, rest)
    | .ok sum =>
      match rest with
      | [] => none
      | .ok (some .plus) :: rest => Demand.sum sum rest
      | .ok (some .closeBracket) :: rest => some (.ok sum.operand, rest)
      | reading :: rest =>
        let fault := Fault.ofReading [.plus, .closeBracket] reading
        some (.error (fault.after sum.label?.toList), rest)
  | reading :: rest =>
    some (.error ((Fault.ofReading [.number, .char, .ident] reading).after sum.label?.toList), rest)

def operand : Demand (Operand String) := do
  match ← next with
  | .ok (some (.number w)) => return .literal ⟨w, none⟩
  | .ok (some (.char w)) => return .literal ⟨w, none⟩
  | .ok (some (.ident name)) => return .ofName name
  | .ok (some .openBracket) => sum {}
  | reading => fail (.ofReading [.number, .char, .ident, .openBracket] reading)

/-- Reads the items that follow up to the end of the line and puts them behind those in `found`,
the last of which comes first. -/
def items (found : List (Item String)) :
    List Reading → Option (Except Fault (List (Item String)) × List Reading)
  | [] => none
  | .ok none :: rest => some (.ok found.reverse, rest)
  | .error e :: rest => some (.error ⟨.lexical e, found.reverse.filterMap Item.label?⟩, rest)
  | .ok (some token) :: rest =>
    match Item.ofToken? token with
    | none => some (.error ⟨.nonConstantData, found.reverse.filterMap Item.label?⟩, rest)
    | some item =>
      match rest with
      | [] => none
      | .ok none :: rest => some (.ok (item :: found).reverse, rest)
      | .ok (some .comma) :: rest => items (item :: found) rest
      | reading :: rest =>
        some (.error ((Fault.ofReading [.comma, .eol] reading).after
          ((item :: found).reverse.filterMap Item.label?)), rest)

def eol : Demand Unit := do
  match ← next with
  | .ok none => return ()
  | reading => fail (.ofReading [.eol] reading)

def comma : Demand Unit := do
  match ← next with
  | .ok (some .comma) => return ()
  | reading => fail (.ofReading [.comma] reading)

/-- Reads the operands of a basic operation up to the end of the line. -/
def basic (op : BasicOp) : Demand (Instruction String) := do
  let a ← operand
  let b ← after a.label?.toList do
    comma
    let b ← operand
    after b.label?.toList eol
    return b
  return .basic op a b

/-- Reads the operand of an extended operation up to the end of the line. -/
def extended (number : Fin 64) : Demand (Instruction String) := do
  let a ← operand
  after a.label?.toList eol
  return .extended number a

/-- Reads a statement behind the word that it starts with, which may have letters of any case. -/
def statement (command : String) : Demand (Statement String) :=
  if command.toLower = "dat" then do return .data (← items [])
  else
    match OpCode.ofName? command with
    | some (.basic op) => do return .instruction (← basic op)
    | some (.extended number) => do return .instruction (← extended number)
    | none => fail { cause := .unknownCommand command.toLower }

/-! ## What readers use -/

def tokens (ts : List Token) : List Reading := ts.map fun t ↦ .ok (some t)

/-- What there is to read on a line: its tokens, and then its end. -/
def tape (lexemes : List Lexeme) : List Reading :=
  lexemes.map (Except.map some) ++ [.ok none]

/-- A reader asks for these readings and no others, whatever follows them, and has a result. -/
def Uses (x : Demand α) (used : List Reading) (result : Except Fault α) : Prop :=
  ∀ supply, x (used ++ supply) = some (result, supply)

/-- Readings that may be made on a line: none of them comes behind the end of the line or a wrong
spelling. -/
def IsMade (lexemes : List Lexeme) (used : List Reading) : Prop :=
  used <+: tape lexemes ∧ ∃ (ts : List Token) (last? : Option Reading),
    used = tokens ts ++ last?.toList

/-- A reader gets to a result on a line. -/
def Stops (x : Demand α) (lexemes : List Lexeme) (result : Except Fault α) : Prop :=
  ∃ used, IsMade lexemes used ∧ Uses x used result

/-- A reader has the result of another one on a line, where it leaves what that one leaves. -/
inductive Gives (x : Demand α) (lexemes : List Lexeme) : Except Fault (α × List Lexeme) → Prop
  | ok (ts : List Token) {a : α} {left : List Lexeme} : lexemes = ts.map .ok ++ left →
      Uses x (tokens ts) (.ok a) → Gives x lexemes (.ok (a, left))
  | error {fault : Fault} : Stops x lexemes (.error fault) → Gives x lexemes (.error fault)

/-- A reader stops on each line with the result of another one. -/
def Closes (x : Demand α) (reader : List Lexeme → Except Fault α) : Prop :=
  ∀ lexemes, Stops x lexemes (reader lexemes)

section Laws

variable {x : Demand α} {used used' : List Reading} {lexemes : List Lexeme}

theorem tokens_append (ts ts' : List Token) : tokens (ts ++ ts') = tokens ts ++ tokens ts' :=
  List.map_append

theorem tape_append (ts : List Token) (lexemes : List Lexeme) :
    tape (ts.map .ok ++ lexemes) = tokens ts ++ tape lexemes := by
  rw [tape, List.map_append, List.map_map, List.append_assoc]
  rfl

/-- One reader after another asks for what both ask for. -/
theorem Uses.bind {f : α → Demand β} {a : α} {result : Except Fault β}
    (hx : Uses x used (.ok a)) (hf : Uses (f a) used' result) :
    Uses (x >>= f) (used ++ used') result := by
  intro supply
  show andThen x f _ = _
  rw [andThen, List.append_assoc, hx]
  exact hf supply

/-- Behind a fault nothing is asked for. -/
theorem Uses.bind_error {fault : Fault} (hx : Uses x used (.error fault)) (f : α → Demand β) :
    Uses (x >>= f) used (.error fault) := by
  intro supply
  show andThen x f _ = _
  rw [andThen, hx]

theorem Uses.after {result : Except Fault α} (hx : Uses x used result) (labels : List String) :
    Uses (x.after labels) used (result.mapError (Fault.after labels)) := by
  intro supply
  rw [Demand.after, hx]
  rfl

/-- What is behind tokens is read as it is on its own. -/
theorem IsMade.skip (h : IsMade lexemes used) (ts : List Token) :
    IsMade (ts.map .ok ++ lexemes) (tokens ts ++ used) := by
  obtain ⟨hstarts, ts', last?, rfl⟩ := h
  refine ⟨?_, ts ++ ts', last?, by rw [tokens_append, List.append_assoc]⟩
  rw [tape_append]
  exact (List.prefix_append_right_inj _).mpr hstarts

/-- A reader that first takes tokens stops where the one that goes on behind them does. -/
theorem Stops.skip {y : Demand β} {result : Except Fault α} {result' : Except Fault β}
    (h : Stops x lexemes result) (ts : List Token)
    (hy : ∀ used, Uses x used result → Uses y (tokens ts ++ used) result') :
    Stops y (ts.map .ok ++ lexemes) result' := by
  obtain ⟨used, hmade, huses⟩ := h
  exact ⟨tokens ts ++ used, hmade.skip ts, hy used huses⟩

theorem Closes.after {reader : List Lexeme → Except Fault α} (h : Closes x reader)
    (labels : List String) :
    Closes (x.after labels) fun lexemes ↦ (reader lexemes).mapError (Fault.after labels) := by
  intro lexemes
  obtain ⟨used, hmade, huses⟩ := h lexemes
  exact ⟨used, hmade, huses.after labels⟩

theorem Closes.map {reader : List Lexeme → Except Fault α} (h : Closes x reader) (f : α → β) :
    Closes (do return f (← x)) fun lexemes ↦ do return f (← reader lexemes) := by
  intro lexemes
  obtain ⟨used, hmade, huses⟩ := h lexemes
  refine ⟨used, hmade, ?_⟩
  dsimp only
  generalize reader lexemes = result at huses ⊢
  cases result with
  | error fault => exact huses.bind_error _
  | ok a =>
      have hpure : Uses (pure (f a)) [] (.ok (f a)) := fun supply ↦ rfl
      have hbind : Uses (x >>= fun a ↦ pure (f a)) _ _ := huses.bind hpure
      rwa [List.append_nil] at hbind

/-- One reader behind another. -/
theorem Closes.bind {reader : List Lexeme → Except Fault (α × List Lexeme)} {f : α → Demand β}
    {next : α → List Lexeme → Except Fault β}
    (hx : ∀ lexemes, Gives x lexemes (reader lexemes)) (hf : ∀ a, Closes (f a) (next a)) :
    Closes (x >>= f) fun lexemes ↦ reader lexemes >>= fun (a, left) ↦ next a left := by
  intro lexemes
  have hgives := hx lexemes
  dsimp only
  generalize reader lexemes = result at hgives ⊢
  cases hgives with
  | ok ts hlexemes huses =>
      subst hlexemes
      exact (hf _ _).skip ts fun used hused ↦ huses.bind hused
  | error hstops =>
      obtain ⟨used, hmade, huses⟩ := hstops
      exact ⟨used, hmade, huses.bind_error f⟩

theorem Gives.skip {y : Demand α} {result : Except Fault (α × List Lexeme)}
    (h : Gives x lexemes result) (ts : List Token)
    (hy : ∀ supply, y (tokens ts ++ supply) = x supply) :
    Gives y (ts.map .ok ++ lexemes) result := by
  have huses : ∀ used result, Uses x used result → Uses y (tokens ts ++ used) result := by
    intro used result hx supply
    rw [List.append_assoc, hy, hx]
  cases h with
  | ok ts' hlexemes hx =>
      refine .ok (ts ++ ts') ?_ ?_
      · rw [hlexemes, List.map_append, List.append_assoc]
      · rw [tokens_append]
        exact huses _ _ hx
  | error hstops => exact .error (hstops.skip ts fun used hx ↦ huses used _ hx)

def first : List Lexeme → Reading
  | [] => .ok none
  | lexeme :: _ => lexeme.map some

/-- What is wrong about the next token can be told from the reading of it. -/
theorem unexpected_eq (expected : List Token.Kind) (lexemes : List Lexeme) :
    Fault.unexpected expected lexemes = .ofReading expected (first lexemes) := by
  rcases lexemes with _ | ⟨e | token, lexemes⟩ <;> rfl

theorem isMade_first (lexemes : List Lexeme) : IsMade lexemes [first lexemes] := by
  refine ⟨?_, [], some (first lexemes), rfl⟩
  cases lexemes with
  | nil => exact List.prefix_refl _
  | cons lexeme lexemes => exact ⟨tape lexemes, rfl⟩

/-- A reader stops at what comes behind some tokens. -/
theorem Stops.at_first {result : Except Fault α} (ts : List Token)
    (h : Uses x (tokens ts ++ [first lexemes]) result) : Stops x (ts.map .ok ++ lexemes) result :=
  ⟨_, (isMade_first lexemes).skip ts, h⟩

end Laws

/-! ## Readers one by one -/

/-- A sum is read on demand up to its closing bracket. -/
theorem gives_sum (sum : BracketSum) (lexemes : List Lexeme) :
    Gives (Demand.sum sum) lexemes (sum.parse lexemes) := by
  fun_induction BracketSum.parse sum lexemes with
  | case1 sum token rest cause hadd =>
      refine .error (Stops.at_first [] fun supply ↦ ?_)
      show Demand.sum sum (.ok (some token) :: supply) = _
      rw [Demand.sum, hadd]
  | case2 sum token sum₁ hadd rest ih =>
      refine ih.skip [token, .plus] fun supply ↦ ?_
      show Demand.sum sum (.ok (some token) :: .ok (some .plus) :: supply) = _
      rw [Demand.sum, hadd]
  | case3 sum token sum₁ hadd rest =>
      refine .ok [token, .closeBracket] rfl fun supply ↦ ?_
      show Demand.sum sum (.ok (some token) :: .ok (some .closeBracket) :: supply) = _
      rw [Demand.sum, hadd]
  | case4 sum token sum₁ hadd rest hplus hclose =>
      refine .error (Stops.at_first [token] fun supply ↦ ?_)
      show Demand.sum sum (.ok (some token) :: first rest :: supply) = _
      rw [Demand.sum, hadd, unexpected_eq]
      rcases rest with _ | ⟨e | token', rest⟩
      · rfl
      · rfl
      · cases token' with
        | plus => exact (hplus rest rfl).elim
        | closeBracket => exact (hclose rest rfl).elim
        | _ => rfl
  | case5 sum lexemes hnot =>
      refine .error (Stops.at_first [] fun supply ↦ ?_)
      rcases lexemes with _ | ⟨e | token, lexemes⟩
      · rfl
      · rfl
      · exact (hnot token lexemes rfl).elim

/-- An operand is read on demand, and nothing behind it. -/
theorem gives_operand (lexemes : List Lexeme) : Gives operand lexemes (Operand.parse lexemes) := by
  have hfails : ∀ lexemes : List Lexeme,
      (∀ supply, operand (first lexemes :: supply) = some (.error
        (.ofReading [.number, .char, .ident, .openBracket] (first lexemes)), supply)) →
      Gives operand lexemes
        (.error (.unexpected [.number, .char, .ident, .openBracket] lexemes)) := by
    intro lexemes h
    rw [unexpected_eq]
    exact .error (Stops.at_first [] h)
  rcases lexemes with _ | ⟨e | token, rest⟩
  · exact hfails [] fun supply ↦ rfl
  · exact hfails (.error e :: rest) fun supply ↦ rfl
  · cases token with
    | number w => exact .ok [.number w] rfl fun supply ↦ rfl
    | char w => exact .ok [.char w] rfl fun supply ↦ rfl
    | ident name => exact .ok [.ident name] rfl fun supply ↦ rfl
    | openBracket => exact (gives_sum {} rest).skip [.openBracket] fun supply ↦ rfl
    | _ => exact hfails _ fun supply ↦ rfl

/-- Data is read on demand up to the end of the line. -/
theorem closes_items (found : List (Item String)) :
    Closes (items found) (Item.parseFrom found) := by
  intro lexemes
  fun_induction Item.parseFrom found lexemes with
  | case1 found => exact Stops.at_first [] fun supply ↦ rfl
  | case2 found e rest => exact Stops.at_first [] fun supply ↦ rfl
  | case3 found token rest hitem =>
      refine Stops.at_first [] fun supply ↦ ?_
      show items found (.ok (some token) :: supply) = _
      rw [items, hitem]
  | case4 found token item hitem =>
      refine Stops.at_first [token] fun supply ↦ ?_
      show items found (.ok (some token) :: .ok none :: supply) = _
      rw [items, hitem]
  | case5 found token item hitem rest ih =>
      refine ih.skip [token, .comma] fun used huses supply ↦ ?_
      show items found (.ok (some token) :: .ok (some .comma) :: (used ++ supply)) = _
      rw [items, hitem]
      exact huses supply
  | case6 found token item hitem rest hnil hcomma =>
      refine Stops.at_first [token] fun supply ↦ ?_
      show items found (.ok (some token) :: first rest :: supply) = _
      rw [items, hitem, unexpected_eq]
      rcases rest with _ | ⟨e | token', rest⟩
      · exact (hnil rfl).elim
      · rfl
      · cases token' with
        | comma => exact (hcomma rest rfl).elim
        | _ => rfl

theorem closes_eol : Closes eol Line.parseEnd := by
  intro lexemes
  refine Stops.at_first [] fun supply ↦ ?_
  rcases lexemes with _ | ⟨e | token, lexemes⟩ <;> rfl

theorem gives_comma (lexemes : List Lexeme) :
    Gives comma lexemes ((Line.parseComma lexemes).map fun left ↦ ((), left)) := by
  rcases lexemes with _ | ⟨e | token, rest⟩
  · exact .error (Stops.at_first [] fun supply ↦ rfl)
  · exact .error (Stops.at_first [] fun supply ↦ rfl)
  · cases token with
    | comma => exact .ok [.comma] rfl fun supply ↦ rfl
    | _ => exact .error (Stops.at_first [] fun supply ↦ rfl)

theorem closes_comma {x : Demand α} {reader : List Lexeme → Except Fault α} (h : Closes x reader) :
    Closes (comma >>= fun _ ↦ x) fun lexemes ↦ Line.parseComma lexemes >>= reader := by
  intro lexemes
  have hcloses := Closes.bind gives_comma (fun _ ↦ h) lexemes
  dsimp only at hcloses ⊢
  cases hcomma : Line.parseComma lexemes <;> rwa [hcomma] at hcloses

theorem closes_basic (op : BasicOp) : Closes (basic op) (Instruction.parseBasic op) := by
  have hlast (b : Operand String) := (closes_eol.after b.label?.toList).map fun _ ↦ b
  have hsecond (a : Operand String) :=
    (closes_comma (Closes.bind gives_operand hlast)).after a.label?.toList
  exact Closes.bind gives_operand fun a ↦ (hsecond a).map fun b ↦ Instruction.basic op a b

theorem closes_extended (number : Fin 64) :
    Closes (extended number) (Instruction.parseExtended number) := by
  have hlast (a : Operand String) :=
    (closes_eol.after a.label?.toList).map fun _ ↦ Instruction.extended number a
  exact Closes.bind gives_operand hlast

/-- A statement is read on demand with the result that it has with all tokens at hand. -/
theorem closes_statement (command : String) :
    Closes (statement command) (Statement.parse command) := by
  have hmap : ∀ {α β : Type} (x : Except Fault α) (f : α → β),
      x.map f = do return f (← x) := by
    intro α β x f
    cases x <;> rfl
  intro lexemes
  rw [statement, Statement.parse]
  by_cases hdat : command.toLower = "dat"
  · rw [if_pos hdat, if_pos hdat, hmap]
    exact (closes_items []).map _ lexemes
  · rw [if_neg hdat, if_neg hdat]
    rcases OpCode.ofName? command with _ | op | number
    · exact ⟨[], ⟨List.nil_prefix, [], none, rfl⟩, fun supply ↦ rfl⟩
    · dsimp only
      rw [hmap]
      exact (closes_basic op).map _ lexemes
    · dsimp only
      rw [hmap]
      exact (closes_extended number).map _ lexemes

/-! ## Lines of text -/

/-- What there is to read on a line, from its first token on. -/
theorem tape_scan_of_read {cs rest : List Char} {t : Token}
    (h : Token.read cs = (.ok (some t), rest)) :
    tape (Token.scan cs) = .ok (some t) :: tape (Token.scan rest) := by
  rw [Token.scan_eq, h]
  rfl

/-- The first reading on the tape is the first that is made of the text. -/
theorem head?_tape_scan (cs : List Char) :
    (tape (Token.scan cs)).head? = some (Token.read cs).1 := by
  rw [Token.scan_eq]
  split <;> next hread => rw [hread]; rfl

/-- What is read on a line is what there is to read, as far as it is read. -/
theorem readings_of_isMade {cs : List Char} {used : List Reading}
    (h : IsMade (Token.scan cs) used) : Token.readings used.length cs = used := by
  obtain ⟨⟨rest, hrest⟩, ts, last?, rfl⟩ := h
  have hhead := head?_tape_scan cs
  induction ts generalizing cs with
  | nil =>
      cases last? with
      | none => rfl
      | some reading =>
          rw [← hrest] at hhead
          exact congrArg (fun reading ↦ [reading]) (Option.some.inj hhead).symm
  | cons t ts ih =>
      rw [← hrest] at hhead
      have hread : Token.read cs = (.ok (some t), (Token.read cs).2) :=
        Prod.ext (Option.some.inj hhead).symm rfl
      rw [tape_scan_of_read hread] at hrest
      have htail := ih (List.cons.inj hrest).2 (head?_tape_scan _)
      show (Token.read cs).1 :: Token.readings _ (Token.read cs).2 = _
      rw [← Option.some.inj hhead]
      exact congrArg _ htail

end Demand

end Dcpu16
