import Dcpu16.Proofs.Line.Data
import Dcpu16.Proofs.Line.Locality
import Dcpu16.Proofs.Line.Renaming

/-!
# Reserved names in lines

An identifier can be an operand, a term of a sum or an item of data, and each of these is read by a
reader of its own.  All of them take it for a label if and only if its name is not reserved.
`Reserved.AtOperand`, `Reserved.AtTerm` and `Reserved.AtItem` are the three places, told by the
tokens in front of the identifier.  At each of them an identifier that is not reserved is the next
label that the line mentions (`Reserved.AtOperand.prefix_statement` and so on), and no reader ever
mentions a reserved name (`Reserved.free_statement`), also if there is a fault later on.
-/

namespace Dcpu16.Reserved

variable {α β : Type}

/-- The labels that have been mentioned where a reader stops, with or without a fault. -/
def mentions (labels : α → List String) : Except Fault α → List String
  | .ok a => labels a
  | .error fault => fault.mentioned

def Free (names : List String) : Prop := ∀ name ∈ names, Grammar.isReserved name = false

/-- Names with others behind them that are not reserved. -/
def Extends (before names : List String) : Prop := ∃ more, Free more ∧ names = before ++ more

/-! ## Places -/

/-- The tokens behind a command in front of an operand. -/
inductive AtOperand : String → List Token → Prop
  | first {command : String} : command.toLower ∈ Grammar.basics ++ Grammar.extendeds →
      AtOperand command []
  | second {command : String} {a : List Token} : command.toLower ∈ Grammar.basics →
      Grammar.Operand a → AtOperand command (a ++ [.comma])

/-- The tokens behind a command in front of a term, where no term before it is a label. -/
inductive AtTerm : String → List Token → Prop
  | sum {command : String} {tokens terms : List Token} : AtOperand command tokens →
      (∀ term ∈ terms, Grammar.isTerm term) → terms.countP Grammar.isRegister ≤ 1 →
      (∀ term ∈ terms, Grammar.isLabel term = false) →
      (∀ term ∈ terms, Grammar.isSpecial term = false) →
      AtTerm command (tokens ++ .openBracket :: terms.flatMap fun term ↦ [term, .plus])

/-- The tokens behind a command in front of an item. -/
inductive AtItem : String → List Token → Prop
  | data {command : String} {items : List Token} : command.toLower = "dat" →
      (∀ item ∈ items, Grammar.isItem item) →
      AtItem command (items.flatMap fun item ↦ [item, .comma])

/-! ## Names that are not reserved -/

theorem free_nil : Free [] := fun _ h ↦ absurd h List.not_mem_nil

theorem Free.append {names names' : List String} (h : Free names) (h' : Free names') :
    Free (names ++ names') := by
  intro name hn
  rcases List.mem_append.mp hn with hn | hn
  · exact h name hn
  · exact h' name hn

/-- A token that is a label is not reserved. -/
theorem free_label? (t : Token) : Free t.label?.toList := by
  intro name hn
  rw [Option.mem_toList] at hn
  cases t with
  | ident word =>
      rw [Token.label?] at hn
      cases hr : Grammar.isReserved word with
      | true =>
          split at hn
          · next l hof => exact absurd hof (Renaming.ofString_ne_label hr l)
          · cases hn
          · cases hn
      | false =>
          rw [Renaming.ofString_of_free hr] at hn
          rw [← Option.some.inj hn, hr]
  | _ => cases hn

/-- An identifier that is not reserved stands for the label of its name. -/
theorem label?_of_free {name : String} (h : Grammar.isReserved name = false) :
    (Token.ident name).label? = some name := by
  rw [Token.label?, Renaming.ofString_of_free h]

theorem Extends.refl (names : List String) : Extends names names :=
  ⟨[], free_nil, (List.append_nil names).symm⟩

/-- Names at the end that are not reserved may count as added. -/
theorem Extends.of_append {before between names : List String}
    (h : Extends (before ++ between) names) (hb : Free between) : Extends before names := by
  obtain ⟨more, hmore, rfl⟩ := h
  exact ⟨between ++ more, hb.append hmore, List.append_assoc ..⟩

theorem Extends.free {before names : List String} (h : Extends before names) (hb : Free before) :
    Free names := by
  obtain ⟨more, hmore, rfl⟩ := h
  exact hb.append hmore

theorem Extends.isPrefix {before names : List String} (h : Extends before names) :
    before <+: names := by
  obtain ⟨more, -, rfl⟩ := h
  exact List.prefix_append before more

/-! ## Sums -/

def operandLabels (read : Operand String × List Lexeme) : List String := read.1.label?.toList

/-- A token that is not expected adds nothing to the labels before it. -/
theorem after_unexpected (expected : List Token.Kind) (lexemes : List Lexeme)
    (labels : List String) :
    ((Fault.unexpected expected lexemes).after labels).mentioned = labels := by
  show labels ++ (Fault.unexpected expected lexemes).mentioned = labels
  rw [Fault.mentioned_unexpected, List.append_nil]

/-- A sum mentions the label it has and then nothing reserved, also if it goes wrong. -/
theorem extends_sum (sum : BracketSum) (lexemes : List Lexeme) :
    Extends sum.label?.toList (mentions operandLabels (sum.parse lexemes)) := by
  fun_induction BracketSum.parse sum lexemes with
  | case1 sum token rest cause hadd => exact .refl _
  | case2 sum token sum₁ hadd rest ih =>
      rw [BracketSum.label?_addTerm hadd] at ih
      exact ih.of_append (free_label? token)
  | case3 sum token sum₁ hadd rest =>
      refine ⟨token.label?.toList, free_label? token, ?_⟩
      rw [← BracketSum.label?_addTerm hadd, mentions, operandLabels, BracketSum.label?_operand]
  | case4 sum token sum₁ hadd rest hplus hclose =>
      refine ⟨token.label?.toList, free_label? token, ?_⟩
      rw [mentions, after_unexpected, BracketSum.label?_addTerm hadd]
  | case5 sum lexemes hnot =>
      rw [mentions, after_unexpected]
      exact .refl _

/-- Terms with a sign behind each of them are added one after the other. -/
theorem parse_terms {sum sum' : BracketSum} {terms : List Token}
    (h : terms.foldlM BracketSum.addTerm sum = .ok sum') (rest : List Lexeme) :
    sum.parse ((terms.flatMap fun term ↦ [term, Token.plus]).map .ok ++ rest) =
      sum'.parse rest := by
  induction terms generalizing sum with
  | nil =>
      obtain rfl := Except.ok.inj h
      rfl
  | cons term terms ih =>
      rw [List.foldlM_cons] at h
      obtain ⟨sum₁, hadd, hfold⟩ := Except.bind_eq_ok.mp h
      rw [← ih hfold]
      show sum.parse (.ok term :: .ok .plus :: _) = _
      rw [BracketSum.parse, hadd]
      rfl

/-- A term that can be added counts as mentioned, whatever follows. -/
theorem extends_term {sum sum₁ : BracketSum} {t : Token} (hadd : sum.addTerm t = .ok sum₁)
    (rest : List Lexeme) :
    Extends sum₁.label?.toList (mentions operandLabels (sum.parse (.ok t :: rest))) := by
  rw [BracketSum.parse, hadd]
  dsimp only
  split
  · exact extends_sum sum₁ _
  · rw [mentions, operandLabels, BracketSum.label?_operand]
    exact .refl _
  · rw [mentions, after_unexpected]
    exact .refl _

/-! ## Operands -/

theorem free_operand (lexemes : List Lexeme) :
    Free (mentions operandLabels (Operand.parse lexemes)) := by
  unfold Operand.parse
  split
  · rw [mentions, operandLabels, Operand.label?_literal]
    exact free_nil
  · rw [mentions, operandLabels, Operand.label?_literal]
    exact free_nil
  · next name rest =>
    rw [mentions, operandLabels, Operand.label?_ofName]
    exact free_label? _
  · exact (extends_sum {} _).free free_nil
  · rw [mentions, Fault.mentioned_unexpected]
    exact free_nil

variable {name : String}

/-- An operand that is a name is mentioned unless it is reserved. -/
theorem prefix_name (h : Grammar.isReserved name = false) (after : List Lexeme) :
    [name] <+: mentions operandLabels (Operand.parse (.ok (.ident name) :: after)) := by
  show [name] <+: (Operand.ofName name).label?.toList
  rw [Operand.label?_ofName, label?_of_free h]
  exact List.prefix_refl _

theorem label?_of_isLabel {t : Token} (h : Grammar.isLabel t = false) : t.label? = none := by
  cases t with
  | ident word =>
      have hname := Grammar.ofString_spec word
      rw [Token.label?]
      cases hof : Name.ofString word with
      | label l =>
          rw [hof] at hname
          cases h.symm.trans hname.2.2.2
      | register r => rfl
      | special s => rfl
  | _ => rfl

theorem filterMap_label? {terms : List Token} (h : ∀ term ∈ terms, Grammar.isLabel term = false) :
    terms.filterMap Token.label? = [] :=
  List.filterMap_eq_nil_iff.mpr fun term ht ↦ label?_of_isLabel (h term ht)

/-- A term that is a name is mentioned unless it is reserved, if it is the first label of its
sum. -/
theorem prefix_term {terms : List Token} (hterm : ∀ term ∈ terms, Grammar.isTerm term)
    (hregister : terms.countP Grammar.isRegister ≤ 1)
    (hlabel : ∀ term ∈ terms, Grammar.isLabel term = false)
    (hspecial : ∀ term ∈ terms, Grammar.isSpecial term = false)
    (h : Grammar.isReserved name = false) (after : List Lexeme) :
    [name] <+: mentions operandLabels (Operand.parse (.ok .openBracket ::
      ((terms.flatMap fun term ↦ [term, .plus]).map .ok ++ .ok (.ident name) :: after))) := by
  have hcount : terms.countP Grammar.isLabel = 0 :=
    List.countP_eq_zero.mpr fun term ht ↦ Bool.eq_false_iff.mp (hlabel term ht)
  obtain ⟨sum, hfold⟩ : ∃ sum, terms.foldlM BracketSum.addTerm {} = .ok sum :=
    Grammar.foldlM_addTerm_iff.mpr ⟨hterm, hspecial, by simpa using hregister, by simp [hcount]⟩
  have hnone : sum.label? = none := by
    have hlabels := (Renaming.foldlM_addTerm hfold).1
    rw [filterMap_label? hlabel] at hlabels
    exact Option.toList_eq_nil_iff.mp hlabels
  have hadd : sum.addTerm (.ident name) = .ok { sum with label? := some name } := by
    rw [BracketSum.addTerm, BracketSum.addName, Renaming.ofString_of_free h, hnone]
    rfl
  show [name] <+: mentions operandLabels (BracketSum.parse {} _)
  rw [parse_terms hfold]
  exact (extends_term hadd after).isPrefix

/-! ## Instructions -/

/-- What is read behind the first operand of a basic operation. -/
def second (left : List Lexeme) : Except Fault (Operand String) := do
  let rest ← Line.parseComma left
  let (b, rest) ← Operand.parse rest
  Except.mapError (Fault.after b.label?.toList) (Line.parseEnd rest)
  return b

/-- The end of a line adds nothing to the names that have been mentioned. -/
theorem mentions_end {labels : β → List String} {b : β} {names : List String}
    (h : labels b = names) (left : List Lexeme) :
    mentions labels (do Except.mapError (Fault.after names) (Line.parseEnd left); return b) =
      names := by
  cases left with
  | nil => exact h
  | cons lexeme left => exact after_unexpected [.eol] (lexeme :: left) names

theorem mentions_second (rest : List Lexeme) :
    mentions (fun b : Operand String ↦ b.label?.toList) (second (.ok .comma :: rest)) =
      mentions operandLabels (Operand.parse rest) := by
  show mentions _ (Operand.parse rest >>= _) = _
  rcases Operand.parse rest with fault | ⟨b, left⟩
  · rfl
  · exact mentions_end rfl left

theorem free_second (left : List Lexeme) :
    Free (mentions (fun b : Operand String ↦ b.label?.toList) (second left)) := by
  rcases left with _ | ⟨e | token, rest⟩
  · exact free_nil
  · exact free_nil
  · cases token with
    | comma =>
        rw [mentions_second]
        exact free_operand rest
    | _ => exact free_nil

/-- A basic operation mentions the labels of its first operand before those of its second. -/
theorem mentions_basic {op : BasicOp} {lexemes left : List Lexeme} {a : Operand String}
    (h : Operand.parse lexemes = .ok (a, left)) :
    mentions Instruction.labels (Instruction.parseBasic op lexemes) =
      a.label?.toList ++ mentions (fun b : Operand String ↦ b.label?.toList) (second left) := by
  have hbind : Instruction.parseBasic op lexemes =
      ((second left).mapError (Fault.after a.label?.toList)).map (Instruction.basic op a) := by
    rw [Instruction.parseBasic, h]
    show Except.mapError (Fault.after a.label?.toList) (second left) >>= _ = _
    cases second left <;> rfl
  rw [hbind]
  cases second left with
  | error fault => rfl
  | ok b => exact Instruction.labels_basic op a b

theorem mentions_extended (number : Fin 64) (lexemes : List Lexeme) :
    mentions Instruction.labels (Instruction.parseExtended number lexemes) =
      mentions operandLabels (Operand.parse lexemes) := by
  rw [Instruction.parseExtended]
  rcases Operand.parse lexemes with fault | ⟨a, left⟩
  · rfl
  · exact mentions_end (Instruction.labels_extended number a) left

theorem free_basic (op : BasicOp) (lexemes : List Lexeme) :
    Free (mentions Instruction.labels (Instruction.parseBasic op lexemes)) := by
  have hfree := free_operand lexemes
  rcases hparse : Operand.parse lexemes with fault | ⟨a, left⟩
  · rw [hparse] at hfree
    rw [Instruction.parseBasic, hparse]
    exact hfree
  · rw [hparse] at hfree
    rw [mentions_basic hparse]
    exact hfree.append (free_second left)

/-- What the first operand mentions is mentioned first. -/
theorem prefix_basic (op : BasicOp) (lexemes : List Lexeme) :
    mentions operandLabels (Operand.parse lexemes) <+:
      mentions Instruction.labels (Instruction.parseBasic op lexemes) := by
  rcases hparse : Operand.parse lexemes with fault | ⟨a, left⟩
  · rw [Instruction.parseBasic, hparse]
    exact List.prefix_refl _
  · rw [mentions_basic hparse]
    exact List.prefix_append _ _

/-! ## Data -/

/-- Items add labels that are not reserved behind those already found. -/
theorem extends_items (found : List (Item String)) (lexemes : List Lexeme) :
    Extends (found.reverse.filterMap Item.label?)
      (mentions (List.filterMap Item.label?) (Item.parseFrom found lexemes)) := by
  fun_induction Item.parseFrom found lexemes with
  | case1 found => exact .refl _
  | case2 found e rest => exact .refl _
  | case3 found token rest hitem => exact .refl _
  | case4 found token item hitem =>
      refine ⟨token.label?.toList, free_label? token, ?_⟩
      rw [mentions, Renaming.labels_reverse_cons, Item.label?_ofToken? hitem]
  | case5 found token item hitem rest ih =>
      rw [Renaming.labels_reverse_cons, Item.label?_ofToken? hitem] at ih
      exact ih.of_append (free_label? token)
  | case6 found token item hitem rest hnil hcomma =>
      refine ⟨token.label?.toList, free_label? token, ?_⟩
      rw [mentions, after_unexpected, Renaming.labels_reverse_cons, Item.label?_ofToken? hitem]

/-- Items with a comma behind each of them are read one after the other. -/
theorem parse_items {ts : List Token} {items : List (Item String)} (h : Data.Read ts items)
    (found : List (Item String)) (rest : List Lexeme) :
    Item.parseFrom found ((ts.flatMap fun t ↦ [t, Token.comma]).map .ok ++ rest) =
      Item.parseFrom (items.reverse ++ found) rest := by
  induction h generalizing found with
  | nil => rfl
  | @cons t item ts items hitem _ ih =>
      rw [List.reverse_cons, List.append_assoc, List.singleton_append, ← ih]
      show Item.parseFrom found (.ok t :: .ok .comma :: _) = _
      rw [Item.parseFrom, hitem]
      rfl

theorem labels_of_read {ts : List Token} {items : List (Item String)} (h : Data.Read ts items) :
    items.filterMap Item.label? = ts.filterMap Token.label? := by
  induction h with
  | nil => rfl
  | cons hitem _ ih =>
      rw [List.filterMap_cons, List.filterMap_cons, Item.label?_ofToken? hitem, ih]

/-- An item that is a name is mentioned unless it is reserved. -/
theorem prefix_item (h : Grammar.isReserved name = false) (found : List (Item String))
    (after : List Lexeme) :
    found.reverse.filterMap Item.label? ++ [name] <+:
      mentions (List.filterMap Item.label?)
        (Item.parseFrom found (.ok (.ident name) :: after)) := by
  have hitem : Item.ofToken? (.ident name) = some (.address name) := by
    rw [Item.ofToken?, Renaming.ofString_of_free h]
  have hfound : found.reverse.filterMap Item.label? ++ [name] =
      ((Item.address name) :: found).reverse.filterMap Item.label? :=
    (Renaming.labels_reverse_cons (.address name) found).symm
  rw [hfound, Item.parseFrom, hitem]
  dsimp only
  split
  · exact List.prefix_refl _
  · exact (extends_items _ _).isPrefix
  · refine Extends.isPrefix ?_
    rw [mentions, after_unexpected]
    exact .refl _

/-! ## Statements -/

theorem mentions_instruction (x : Except Fault (Instruction String)) :
    mentions Statement.labels (x.map .instruction) = mentions Instruction.labels x := by
  cases x <;> rfl

theorem parse_dat {command : String} (h : command.toLower = "dat") (lexemes : List Lexeme) :
    mentions Statement.labels (Statement.parse command lexemes) =
      mentions (List.filterMap Item.label?) (Item.parseFrom [] lexemes) := by
  rw [Statement.parse, if_pos h]
  cases Item.parseFrom [] lexemes <;> rfl

/-- Data have no operation. -/
theorem ne_dat {command : String} (h : command.toLower ∈ Grammar.basics ++ Grammar.extendeds) :
    command.toLower ≠ "dat" := by
  intro hdat
  rw [hdat] at h
  exact absurd h (by decide)

theorem parse_basic {command : String} (h : command.toLower ∈ Grammar.basics)
    (lexemes : List Lexeme) :
    ∃ op, mentions Statement.labels (Statement.parse command lexemes) =
      mentions Instruction.labels (Instruction.parseBasic op lexemes) := by
  have hdat := ne_dat (List.mem_append_left _ h)
  obtain ⟨op, hop⟩ := Grammar.mem_basics.mp h
  refine ⟨op, ?_⟩
  rw [Statement.parse, if_neg hdat, hop]
  exact mentions_instruction _

theorem parse_extended {command : String} (h : command.toLower ∈ Grammar.extendeds)
    (lexemes : List Lexeme) :
    mentions Statement.labels (Statement.parse command lexemes) =
      mentions operandLabels (Operand.parse lexemes) := by
  have hdat := ne_dat (List.mem_append_right _ h)
  obtain ⟨number, hn⟩ := Grammar.mem_extendeds.mp h
  rw [Statement.parse, if_neg hdat, hn, ← mentions_extended number]
  exact mentions_instruction _

/-- No statement mentions a reserved name, whether it can be read or not. -/
theorem free_statement (command : String) (lexemes : List Lexeme) :
    Free (mentions Statement.labels (Statement.parse command lexemes)) := by
  by_cases hdat : command.toLower = "dat"
  · rw [parse_dat hdat]
    exact (extends_items [] lexemes).free free_nil
  · rw [Statement.parse, if_neg hdat]
    rcases OpCode.ofName? command with _ | op | number
    · exact free_nil
    · rw [mentions_instruction]
      exact free_basic op lexemes
    · rw [mentions_instruction, mentions_extended]
      exact free_operand lexemes

theorem labels_of_parse {ts : List Token} {left : List Lexeme} {operand : Operand String}
    (h : Operand.parse (ts.map .ok ++ left) = .ok (operand, left)) :
    ts.filterMap Token.label? = operand.label?.toList := by
  obtain ⟨ts', hts, hlabels, -⟩ := Renaming.operand_parse h
  have hinjective : Function.Injective (Except.ok : Token → Lexeme) := fun _ _ ↦ Except.ok.inj
  obtain rfl := hinjective.list_map (List.append_cancel_right hts)
  exact hlabels

theorem filterMap_separated {sep : Token} (h : sep.label? = none) (ts : List Token) :
    (ts.flatMap fun t ↦ [t, sep]).filterMap Token.label? = ts.filterMap Token.label? := by
  induction ts with
  | nil => rfl
  | cons t ts ih =>
      rw [List.flatMap_cons, List.filterMap_append, ih, Token.labels_cons t ts,
        Token.labels_cons t [sep], List.filterMap_cons_none h]
      exact congrArg (· ++ _) (List.append_nil _)

/-- What an operand mentions comes next behind the labels in front of it. -/
theorem AtOperand.prefix_statement {command : String} {tokens : List Token}
    (h : AtOperand command tokens) {names : List String} {rest : List Lexeme}
    (hrest : names <+: mentions operandLabels (Operand.parse rest)) :
    tokens.filterMap Token.label? ++ names <+:
      mentions Statement.labels (Statement.parse command (tokens.map .ok ++ rest)) := by
  cases h with
  | first hcommand =>
      rcases List.mem_append.mp hcommand with hbasic | hextended
      · obtain ⟨op, hop⟩ := parse_basic hbasic rest
        show names <+: mentions Statement.labels (Statement.parse command rest)
        rw [hop]
        exact hrest.trans (prefix_basic op rest)
      · show names <+: mentions Statement.labels (Statement.parse command rest)
        rwa [parse_extended hextended]
  | @second a hcommand ha =>
      obtain ⟨operand, hparse⟩ : ∃ operand,
          Operand.parse (a.map .ok ++ .ok .comma :: rest) = .ok (operand, .ok .comma :: rest) :=
        Grammar.operand_iff.mpr ⟨a, ha, rfl⟩
      obtain ⟨op, hop⟩ := parse_basic hcommand (a.map .ok ++ .ok .comma :: rest)
      have hlexemes : (a ++ [Token.comma]).map .ok ++ rest = a.map .ok ++ .ok .comma :: rest := by
        simp
      have hlabels : (a ++ [Token.comma]).filterMap Token.label? = operand.label?.toList := by
        rw [List.filterMap_append, labels_of_parse hparse]
        exact List.append_nil _
      rw [hlexemes, hlabels, hop, mentions_basic hparse, mentions_second]
      exact (List.prefix_append_right_inj _).mpr hrest

theorem AtTerm.prefix_statement {command : String} {tokens : List Token} (h : AtTerm command tokens)
    (hname : Grammar.isReserved name = false) (after : List Lexeme) :
    tokens.filterMap Token.label? ++ [name] <+:
      mentions Statement.labels
        (Statement.parse command (tokens.map .ok ++ .ok (.ident name) :: after)) := by
  cases h with
  | @sum tokens terms hoperand hterm hregister hlabel hspecial =>
      have hterms := prefix_term hterm hregister hlabel hspecial hname after
      have hstarts := hoperand.prefix_statement hterms
      have hlabels : (tokens ++ .openBracket :: terms.flatMap fun term ↦ [term, .plus]).filterMap
          Token.label? = tokens.filterMap Token.label? := by
        rw [List.filterMap_append, List.filterMap_cons_none rfl, filterMap_separated rfl,
          filterMap_label? hlabel, List.append_nil]
      rw [hlabels, List.map_append, List.append_assoc]
      exact hstarts

theorem AtItem.prefix_statement {command : String} {tokens : List Token} (h : AtItem command tokens)
    (hname : Grammar.isReserved name = false) (after : List Lexeme) :
    tokens.filterMap Token.label? ++ [name] <+:
      mentions Statement.labels
        (Statement.parse command (tokens.map .ok ++ .ok (.ident name) :: after)) := by
  cases h with
  | @data ts hcommand hitems =>
      obtain ⟨items, hread⟩ := Data.exists_read hitems
      have hstarts := prefix_item hname items.reverse after
      rw [List.reverse_reverse, labels_of_read hread] at hstarts
      rw [parse_dat hcommand, parse_items hread, List.append_nil, filterMap_separated rfl]
      exact hstarts

end Dcpu16.Reserved
