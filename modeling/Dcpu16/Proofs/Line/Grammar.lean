import Dcpu16.Line.Parser
import Dcpu16.Proofs.Except

/-!
# The language of lines

What the readers accept, as a grammar on tokens that says nothing of how they work: `Token.Reads`
for the spelling of a line, `Grammar.Operand`, `Grammar.Statement` and `Grammar.Line` for what
tokens can stand behind each other.  Names, with their reserved words, are spelled out here once
more.

For each reader there is a lemma that tells what it accepts in both directions.  Main statement:
`Grammar.line_iff`, by which the lines that can be read are those of the grammar.
-/

namespace Dcpu16

/-- A line is spelled right and has these tokens. -/
inductive Token.Reads : List Char → List Token → Prop
  /-- The end of the line comes next. -/
  | eol {cs rest : List Char} : Token.read cs = (.ok none, rest) → Token.Reads cs []
  /-- A token comes next. -/
  | token {cs rest : List Char} {t : Token} {tokens : List Token} :
      Token.read cs = (.ok (some t), rest) → Token.Reads rest tokens → Token.Reads cs (t :: tokens)

/-- Scanning gives tokens only if and only if the line is spelled right. -/
theorem Token.scan_eq_iff {cs : List Char} {tokens : List Token} :
    Token.scan cs = tokens.map .ok ↔ Token.Reads cs tokens := by
  constructor
  · intro h
    induction tokens generalizing cs with
    | nil =>
        rw [Token.scan_eq] at h
        split at h
        · next rest hread => exact .eol hread
        · exact nomatch h
        · exact nomatch h
    | cons t tokens ih =>
        rw [Token.scan_eq] at h
        split at h
        · exact nomatch h
        · exact nomatch h
        · next t' rest hread =>
            obtain ⟨ht, hrest⟩ := List.cons.inj h
            obtain rfl : t' = t := Except.ok.inj ht
            exact .token hread (ih hrest)
  · intro h
    induction h with
    | eol hread => rw [Token.scan_eq, hread]; rfl
    | token hread _ ih => rw [Token.scan_eq, hread, List.map_cons, ← ih]

namespace Grammar

/-! ## Words -/

def registers : List String := ["a", "b", "c", "x", "y", "z", "i", "j"]

def specials : List String := ["pop", "peek", "push", "sp", "pc", "o"]

/-- The mnemonics of the operations with two operands. -/
def basics : List String :=
  ["set", "add", "sub", "mul", "div", "mod", "shl", "shr", "and", "bor", "xor", "ife", "ifn", "ifg",
    "ifb"]

/-- The mnemonics of the operations with one operand. -/
def extendeds : List String := ["jsr"]

def isRegister : Token → Bool
  | .ident name => name.toLower ∈ registers
  | _ => false

def isSpecial : Token → Bool
  | .ident name => name.toLower ∈ specials
  | _ => false

def isLabel : Token → Bool
  | .ident name => name.toLower ∉ registers ∧ name.toLower ∉ specials
  | _ => false

/-! ## Rules -/

/-- Whether a token can be a term of a sum. -/
def isTerm : Token → Bool
  | .number _ | .char _ | .ident _ => true
  | _ => false

/-- Whether a token can be an item of data. -/
def isItem : Token → Bool
  | .number _ | .char _ | .text _ => true
  | token => isLabel token

/-- The terms of a sum in brackets. -/
structure Sum (terms : List Token) : Prop where
  ne_nil : terms ≠ []
  isTerm : ∀ term ∈ terms, isTerm term
  register : terms.countP isRegister ≤ 1
  label : terms.countP isLabel ≤ 1
  special : ∀ term ∈ terms, isSpecial term = false

inductive Operand : List Token → Prop
  | number (w : UInt16) : Operand [.number w]
  | char (w : UInt16) : Operand [.char w]
  | name (name : String) : Operand [.ident name]
  | sum {terms : List Token} : Sum terms →
      Operand (.openBracket :: (terms.intersperse .plus ++ [.closeBracket]))

inductive Statement : List Token → Prop
  | basic {command : String} {a b : List Token} : command.toLower ∈ basics → Operand a →
      Operand b → Statement (.ident command :: (a ++ .comma :: b))
  | extended {command : String} {a : List Token} : command.toLower ∈ extendeds → Operand a →
      Statement (.ident command :: a)
  /-- Data may be empty. -/
  | data {command : String} {items : List Token} : command.toLower = "dat" →
      (∀ item ∈ items, isItem item) → Statement (.ident command :: items.intersperse .comma)
  /-- One comma may follow the last item. -/
  | dataComma {command : String} {items : List Token} : command.toLower = "dat" → items ≠ [] →
      (∀ item ∈ items, isItem item) →
      Statement (.ident command :: (items.intersperse .comma ++ [.comma]))

/-- The tokens of a line that defines these labels. -/
inductive Line : List String → List Token → Prop
  | empty : Line [] []
  | statement {tokens : List Token} : Statement tokens → Line [] tokens
  | mark {marks : List String} {tokens : List Token} (name : String) : Line marks tokens →
      Line (name :: marks) (.colon :: .ident name :: tokens)

/-! ## Reserved words -/

theorem isSome_registerOfName? (name : String) :
    (Register.ofName? name).isSome ↔ name.toLower ∈ registers := by
  have hnames : registers = Register.all.map Register.name := rfl
  rw [Register.ofName?, List.find?_isSome, hnames, List.mem_map]
  simp only [beq_iff_eq]

theorem isSome_specialOfName? (name : String) :
    (Special.ofName? name).isSome ↔ name.toLower ∈ specials := by
  have hnames : specials = Special.all.map Special.name := rfl
  rw [Special.ofName?, List.find?_isSome, hnames, List.mem_map]
  simp only [beq_iff_eq]

/-- What a name stands for as an operand, told by the lists of the grammar. -/
theorem ofString_spec (name : String) :
    match Name.ofString name with
    | .register _ => isRegister (.ident name) ∧ isSpecial (.ident name) = false ∧
        isLabel (.ident name) = false
    | .special _ => isRegister (.ident name) = false ∧ isSpecial (.ident name) ∧
        isLabel (.ident name) = false
    | .label label => label = name ∧ isRegister (.ident name) = false ∧
        isSpecial (.ident name) = false ∧ isLabel (.ident name) := by
  have hdisjoint : ∀ word ∈ registers, word ∉ specials := by decide
  have hr := isSome_registerOfName? name
  have hs := isSome_specialOfName? name
  simp only [isRegister, isSpecial, isLabel]
  unfold Name.ofString
  cases hreg : Register.ofName? name with
  | some r =>
      have hmem := hr.mp (Option.isSome_of_eq_some hreg)
      simp [hmem, hdisjoint _ hmem]
  | none =>
      rw [hreg, Option.isSome_none] at hr
      cases hspec : Special.ofName? name with
      | some s => simp [← hr, hs.mp (Option.isSome_of_eq_some hspec)]
      | none =>
          rw [hspec, Option.isSome_none] at hs
          simp [← hr, ← hs]

/-- No mnemonic is that of two operations. -/
theorem ofName?_eq_some_iff {command : String} {op : OpCode} :
    OpCode.ofName? command = some op ↔ (command.toLower, op) ∈ OpCode.mnemonics := by
  have hfirst : ∀ entry ∈ OpCode.mnemonics,
      OpCode.mnemonics.find? (fun entry' ↦ entry'.1 == entry.1) = some entry := by decide
  rw [OpCode.ofName?, Option.map_eq_some_iff]
  constructor
  · rintro ⟨entry, hfind, rfl⟩
    have hname : entry.1 = command.toLower := by simpa using List.find?_some hfind
    exact hname ▸ List.mem_of_find?_eq_some hfind
  · exact fun hmem ↦ ⟨_, hfirst _ hmem, rfl⟩

theorem mem_basics {command : String} :
    command.toLower ∈ basics ↔ ∃ op, OpCode.ofName? command = some (.basic op) := by
  have hbasics : basics = BasicOp.all.map BasicOp.name := rfl
  simp only [ofName?_eq_some_iff, hbasics, OpCode.mnemonics, List.mem_append, List.mem_map,
    List.mem_singleton, Prod.mk.injEq, OpCode.basic.injEq, OpCode.jsr, reduceCtorEq, and_false,
    or_false]
  constructor
  · rintro ⟨op, ho, hname⟩
    exact ⟨op, op, ho, hname, rfl⟩
  · rintro ⟨_, op, ho, hname, _⟩
    exact ⟨op, ho, hname⟩

theorem mem_extendeds {command : String} :
    command.toLower ∈ extendeds ↔ ∃ number, OpCode.ofName? command = some (.extended number) := by
  simp [ofName?_eq_some_iff, extendeds, OpCode.mnemonics, OpCode.jsr]

/-! ## Sums -/

/-- A term can be added to a sum unless it would be a second register or a second label. -/
theorem addTerm_spec (sum : BracketSum) (term : Token) :
    match sum.addTerm term with
    | .ok sum' => isTerm term ∧ isSpecial term = false ∧
        sum'.register?.toList.length =
          sum.register?.toList.length + (if isRegister term then 1 else 0) ∧
        sum'.label?.toList.length = sum.label?.toList.length + (if isLabel term then 1 else 0)
    | .error _ => isTerm term = false ∨ isSpecial term ∨
        isRegister term ∧ sum.register?.toList.length = 1 ∨
        isLabel term ∧ sum.label?.toList.length = 1 := by
  cases term with
  | number w => exact ⟨rfl, rfl, rfl, rfl⟩
  | char w => exact ⟨rfl, rfl, rfl, rfl⟩
  | ident name =>
      have hname := ofString_spec name
      have hterm : isTerm (.ident name) := rfl
      rw [BracketSum.addTerm, BracketSum.addName]
      cases hof : Name.ofString name with
      | register r =>
          obtain ⟨hr, hs, hl⟩ : _ ∧ _ ∧ _ := by rwa [hof] at hname
          cases hsum : sum.register? <;> simp [hr, hs, hl, hterm]
      | special s =>
          obtain ⟨hr, hs, hl⟩ : _ ∧ _ ∧ _ := by rwa [hof] at hname
          simp [hs]
      | label l =>
          obtain ⟨-, hr, hs, hl⟩ : _ ∧ _ ∧ _ ∧ _ := by rwa [hof] at hname
          cases hsum : sum.label? <;> simp [hr, hs, hl, hterm]
  | _ => exact .inl rfl

/-- Terms can be added to a sum if they leave it with at most one register and one label. -/
theorem foldlM_addTerm_iff {sum : BracketSum} {terms : List Token} :
    (∃ sum', terms.foldlM BracketSum.addTerm sum = .ok sum') ↔
      (∀ term ∈ terms, isTerm term) ∧ (∀ term ∈ terms, isSpecial term = false) ∧
        sum.register?.toList.length + terms.countP isRegister ≤ 1 ∧
        sum.label?.toList.length + terms.countP isLabel ≤ 1 := by
  induction terms generalizing sum with
  | nil =>
      have hone : ∀ {α : Type} (x? : Option α), x?.toList.length ≤ 1 := by
        intro α x?
        cases x? <;> simp
      simp [hone, pure, Except.pure]
  | cons term terms ih =>
      have hstep := addTerm_spec sum term
      rw [List.foldlM_cons, List.forall_mem_cons, List.forall_mem_cons, List.countP_cons,
        List.countP_cons]
      cases hadd : sum.addTerm term with
      | ok sum' =>
          obtain ⟨hterm, hs, hr, hl⟩ : _ ∧ _ ∧ _ ∧ _ := by rwa [hadd] at hstep
          change (∃ sum'', terms.foldlM BracketSum.addTerm sum' = .ok sum'') ↔ _
          have hcomm : ∀ k m n : Nat, k + m + n = k + (n + m) := by omega
          rw [ih, hr, hl, hcomm, hcomm]
          simp [hterm, hs]
      | error cause =>
          have hstep : isTerm term = false ∨ isSpecial term ∨
              isRegister term ∧ sum.register?.toList.length = 1 ∨
              isLabel term ∧ sum.label?.toList.length = 1 := by rwa [hadd] at hstep
          refine ⟨fun ⟨_, h⟩ ↦ (nomatch h), ?_⟩
          rintro ⟨⟨hterm, -⟩, ⟨hspecial, -⟩, hregister, hlabel⟩
          rcases hstep with h | h | ⟨h, hone⟩ | ⟨h, hone⟩
          · exact absurd hterm (Bool.eq_false_iff.mp h)
          · exact absurd h (Bool.eq_false_iff.mp hspecial)
          · rw [if_pos h] at hregister
            omega
          · rw [if_pos h] at hlabel
            omega

/-- A sum is read up to the bracket that closes it. -/
theorem bracketSum_iff {sum : BracketSum} {lexemes rest : List Lexeme}
    {operand : Dcpu16.Operand String} :
    sum.parse lexemes = .ok (operand, rest) ↔
      ∃ terms sum', terms ≠ [] ∧ terms.foldlM BracketSum.addTerm sum = .ok sum' ∧
        operand = sum'.operand ∧
        lexemes = (terms.intersperse Token.plus ++ [Token.closeBracket]).map .ok ++ rest := by
  constructor
  · intro h
    fun_induction BracketSum.parse sum lexemes with
    | case1 => exact nomatch h
    | case2 sum token sum₁ hadd rest' ih =>
        obtain ⟨terms, sum', hne, hfold, hoperand, rfl⟩ := ih h
        obtain ⟨term, terms, rfl⟩ := List.exists_cons_of_ne_nil hne
        refine ⟨token :: term :: terms, sum', List.cons_ne_nil _ _, ?_, hoperand, by simp⟩
        rw [List.foldlM_cons, hadd]
        exact hfold
    | case3 sum token sum₁ hadd rest' =>
        obtain ⟨rfl, rfl⟩ := Prod.mk.inj (Except.ok.inj h)
        refine ⟨[token], sum₁, List.cons_ne_nil _ _, ?_, rfl, by simp⟩
        rw [List.foldlM_cons, hadd]
        rfl
    | case4 => exact nomatch h
    | case5 => exact nomatch h
  · rintro ⟨terms, sum', hne, hfold, rfl, rfl⟩
    induction terms generalizing sum with
    | nil => exact absurd rfl hne
    | cons term terms ih =>
        rw [List.foldlM_cons] at hfold
        cases hadd : sum.addTerm term with
        | error cause => rw [hadd] at hfold; exact nomatch hfold
        | ok sum₁ =>
            rw [hadd] at hfold
            cases terms with
            | nil =>
                obtain rfl : sum₁ = sum' := Except.ok.inj hfold
                simp [BracketSum.parse, hadd]
            | cons term' terms =>
                have hparse := ih (List.cons_ne_nil _ _) hfold
                simpa [BracketSum.parse, hadd] using hparse

/-! ## Operands -/

/-- The sums of the grammar are those that can be added up. -/
theorem sum_iff {terms : List Token} :
    Sum terms ↔ terms ≠ [] ∧ ∃ sum, terms.foldlM BracketSum.addTerm {} = .ok sum := by
  rw [foldlM_addTerm_iff]
  constructor
  · rintro ⟨hne, hterm, hr, hl, hs⟩
    exact ⟨hne, hterm, hs, by simpa using hr, by simpa using hl⟩
  · rintro ⟨hne, hterm, hs, hr, hl⟩
    exact ⟨hne, hterm, by simpa using hr, by simpa using hl, hs⟩

/-- An operand is read if and only if the line begins with one of the grammar. -/
theorem operand_iff {lexemes rest : List Lexeme} :
    (∃ operand, Dcpu16.Operand.parse lexemes = .ok (operand, rest)) ↔
      ∃ tokens, Operand tokens ∧ lexemes = tokens.map .ok ++ rest := by
  constructor
  · rintro ⟨operand, h⟩
    unfold Dcpu16.Operand.parse at h
    split at h
    · next w left =>
        obtain ⟨-, rfl⟩ := Prod.mk.inj (Except.ok.inj h)
        exact ⟨_, .number w, rfl⟩
    · next w left =>
        obtain ⟨-, rfl⟩ := Prod.mk.inj (Except.ok.inj h)
        exact ⟨_, .char w, rfl⟩
    · next name left =>
        obtain ⟨-, rfl⟩ := Prod.mk.inj (Except.ok.inj h)
        exact ⟨_, .name name, rfl⟩
    · obtain ⟨terms, sum, hne, hfold, -, rfl⟩ := bracketSum_iff.mp h
      exact ⟨_, .sum (sum_iff.mpr ⟨hne, sum, hfold⟩), rfl⟩
    · exact nomatch h
  · rintro ⟨tokens, htokens, rfl⟩
    cases htokens with
    | number w => exact ⟨_, rfl⟩
    | char w => exact ⟨_, rfl⟩
    | name name => exact ⟨_, rfl⟩
    | sum hsum =>
        obtain ⟨hne, sum, hfold⟩ := sum_iff.mp hsum
        exact ⟨_, bracketSum_iff.mpr ⟨_, sum, hne, hfold, rfl, rfl⟩⟩

/-! ## Data -/

theorem isSome_ofToken? (token : Token) : (Item.ofToken? token).isSome ↔ isItem token := by
  cases token with
  | ident name =>
      have hname := ofString_spec name
      rw [isItem, Item.ofToken?]
      · cases hof : Name.ofString name <;> rw [hof] at hname <;> simp_all
      all_goals nofun
  | _ => simp [Item.ofToken?, isItem, isLabel]

/-- Items have commas between them, and may have one behind the last. -/
def IsData (items tokens : List Token) : Prop :=
  tokens = items.intersperse .comma ∨ items ≠ [] ∧ tokens = items.intersperse .comma ++ [.comma]

theorem isData_cons {item : Token} {items tokens : List Token} :
    IsData (item :: items) tokens ↔ items = [] ∧ tokens = [item] ∨
      ∃ tokens', tokens = item :: .comma :: tokens' ∧ IsData items tokens' := by
  cases items with
  | nil => simp [IsData]
  | cons item' items =>
      simp only [IsData, List.intersperse_cons_cons, reduceCtorEq, false_and, false_or, ne_eq,
        not_false_eq_true, true_and]
      constructor
      · rintro (rfl | rfl)
        · exact ⟨_, rfl, .inl rfl⟩
        · exact ⟨_, rfl, .inr rfl⟩
      · rintro ⟨tokens', rfl, rfl | rfl⟩
        · exact .inl rfl
        · exact .inr rfl

/-- Data is read if and only if it is a list of items, with or without a comma at the end. -/
theorem data_iff (found : List (Item String)) {lexemes : List Lexeme} :
    (∃ result, Item.parseFrom found lexemes = .ok result) ↔
      ∃ items tokens, (∀ item ∈ items, isItem item) ∧ IsData items tokens ∧
        lexemes = tokens.map .ok := by
  constructor
  · rintro ⟨result, h⟩
    fun_induction Item.parseFrom found lexemes with
    | case1 => exact ⟨[], [], nofun, .inl rfl, rfl⟩
    | case2 => exact nomatch h
    | case3 => exact nomatch h
    | case4 found token item hitem =>
        have hisItem := (isSome_ofToken? token).mp (Option.isSome_of_eq_some hitem)
        exact ⟨[token], [token], List.forall_mem_singleton.mpr hisItem, .inl rfl, rfl⟩
    | case5 found token item hitem rest ih =>
        have hisItem := (isSome_ofToken? token).mp (Option.isSome_of_eq_some hitem)
        obtain ⟨items, tokens, hitems, hdata, rfl⟩ := ih h
        exact ⟨token :: items, token :: .comma :: tokens,
          List.forall_mem_cons.mpr ⟨hisItem, hitems⟩,
          isData_cons.mpr (.inr ⟨tokens, rfl, hdata⟩), rfl⟩
    | case6 => exact nomatch h
  · rintro ⟨items, tokens, hitems, hdata, rfl⟩
    induction items generalizing found tokens with
    | nil =>
        obtain rfl : tokens = [] := by simpa [IsData] using hdata
        exact ⟨_, rfl⟩
    | cons token items ih =>
        obtain ⟨htoken, hitems⟩ := List.forall_mem_cons.mp hitems
        obtain ⟨item, hitem⟩ := Option.isSome_iff_exists.mp ((isSome_ofToken? token).mpr htoken)
        rcases isData_cons.mp hdata with ⟨rfl, rfl⟩ | ⟨tokens, rfl, htokens⟩
        · exact ⟨_, by rw [List.map_singleton, Item.parseFrom, hitem]⟩
        · obtain ⟨result, hresult⟩ := ih (item :: found) tokens hitems htokens
          refine ⟨result, ?_⟩
          rw [List.map_cons, List.map_cons, Item.parseFrom, hitem]
          exact hresult

/-! ## Statements -/

theorem parseEnd_iff {lexemes : List Lexeme} {u : Unit} :
    Line.parseEnd lexemes = .ok u ↔ lexemes = [] := by
  cases lexemes <;> simp [Line.parseEnd]

theorem parseComma_iff {lexemes rest : List Lexeme} :
    Line.parseComma lexemes = .ok rest ↔ lexemes = .ok .comma :: rest := by
  unfold Line.parseComma
  split
  · simp
  · next h =>
      refine ⟨fun h' ↦ (nomatch h'), ?_⟩
      rintro rfl
      exact absurd rfl (h rest)

theorem parseBasic_iff {op : BasicOp} {lexemes : List Lexeme} :
    (∃ i, Instruction.parseBasic op lexemes = .ok i) ↔
      ∃ a b, Operand a ∧ Operand b ∧ lexemes = (a ++ .comma :: b).map .ok := by
  simp only [Instruction.parseBasic, Except.bind_eq_ok, Except.mapError_eq_ok, parseComma_iff,
    parseEnd_iff, pure, Except.pure]
  constructor
  · rintro ⟨i, ⟨a', rest⟩, hreadA, b, ⟨rest', rfl, ⟨b', _⟩, hreadB, _, rfl, _⟩, _⟩
    obtain ⟨b, hb, rfl⟩ := operand_iff.mp ⟨b', hreadB⟩
    obtain ⟨a, ha, rfl⟩ := operand_iff.mp ⟨a', hreadA⟩
    exact ⟨a, b, ha, hb, by simp⟩
  · rintro ⟨a, b, ha, hb, rfl⟩
    obtain ⟨b', hreadB⟩ := operand_iff.mpr ⟨b, hb, (List.append_nil _).symm⟩
    obtain ⟨a', hreadA⟩ := operand_iff.mpr ⟨a, ha, List.map_append⟩
    exact ⟨_, (a', _), hreadA, b', ⟨b.map .ok, rfl, (b', []), hreadB, (), rfl, rfl⟩, rfl⟩

theorem parseExtended_iff {number : Fin 64} {lexemes : List Lexeme} :
    (∃ i, Instruction.parseExtended number lexemes = .ok i) ↔
      ∃ a, Operand a ∧ lexemes = a.map .ok := by
  simp only [Instruction.parseExtended, Except.bind_eq_ok, Except.mapError_eq_ok, parseEnd_iff,
    pure, Except.pure]
  constructor
  · rintro ⟨i, ⟨a', rest⟩, hread, _, rfl, _⟩
    obtain ⟨a, ha, rfl⟩ := operand_iff.mp ⟨a', hread⟩
    exact ⟨a, ha, by simp⟩
  · rintro ⟨a, ha, rfl⟩
    obtain ⟨a', hread⟩ := operand_iff.mpr ⟨a, ha, (List.append_nil _).symm⟩
    exact ⟨_, (a', []), hread, (), rfl, rfl⟩

theorem statement_data {command : String} {tokens : List Token} (hc : command.toLower = "dat") :
    Statement (.ident command :: tokens) ↔
      ∃ items, (∀ item ∈ items, isItem item) ∧ IsData items tokens := by
  have hdat : "dat" ∉ basics ∧ "dat" ∉ extendeds := by decide
  constructor
  · intro h
    cases h with
    | basic hmem => exact absurd (hc ▸ hmem) hdat.1
    | extended hmem => exact absurd (hc ▸ hmem) hdat.2
    | data _ hitems => exact ⟨_, hitems, .inl rfl⟩
    | dataComma _ hne hitems => exact ⟨_, hitems, .inr ⟨hne, rfl⟩⟩
  · rintro ⟨items, hitems, rfl | ⟨hne, rfl⟩⟩
    · exact .data hc hitems
    · exact .dataComma hc hne hitems

theorem statement_basic {command : String} {op : BasicOp} {tokens : List Token}
    (hc : command.toLower ≠ "dat") (ho : OpCode.ofName? command = some (.basic op)) :
    Statement (.ident command :: tokens) ↔
      ∃ a b, Operand a ∧ Operand b ∧ tokens = a ++ .comma :: b := by
  constructor
  · intro h
    cases h with
    | basic _ ha hb => exact ⟨_, _, ha, hb, rfl⟩
    | extended hmem =>
        obtain ⟨number, hn⟩ := mem_extendeds.mp hmem
        exact nomatch ho.symm.trans hn
    | data hdat => exact absurd hdat hc
    | dataComma hdat => exact absurd hdat hc
  · rintro ⟨a, b, ha, hb, rfl⟩
    exact .basic (mem_basics.mpr ⟨op, ho⟩) ha hb

theorem statement_extended {command : String} {number : Fin 64} {tokens : List Token}
    (hc : command.toLower ≠ "dat") (ho : OpCode.ofName? command = some (.extended number)) :
    Statement (.ident command :: tokens) ↔ Operand tokens := by
  constructor
  · intro h
    cases h with
    | basic hmem =>
        obtain ⟨op, hop⟩ := mem_basics.mp hmem
        exact nomatch ho.symm.trans hop
    | extended _ ha => exact ha
    | data hdat => exact absurd hdat hc
    | dataComma hdat => exact absurd hdat hc
  · exact .extended (mem_extendeds.mpr ⟨number, ho⟩)

theorem not_statement {command : String} {tokens : List Token} (hc : command.toLower ≠ "dat")
    (ho : OpCode.ofName? command = none) : ¬Statement (.ident command :: tokens) := by
  intro h
  cases h with
  | basic hmem =>
      obtain ⟨op, hop⟩ := mem_basics.mp hmem
      exact nomatch ho.symm.trans hop
  | extended hmem =>
      obtain ⟨number, hn⟩ := mem_extendeds.mp hmem
      exact nomatch ho.symm.trans hn
  | data hdat => exact absurd hdat hc
  | dataComma hdat => exact absurd hdat hc

/-- A statement is read if and only if it is one of the grammar. -/
theorem statement_iff {command : String} {lexemes : List Lexeme} :
    (∃ statement, Statement.parse command lexemes = .ok statement) ↔
      ∃ tokens, Statement (.ident command :: tokens) ∧ lexemes = tokens.map .ok := by
  have hmap : ∀ {α β : Type} (x : Except Fault α) (f : α → β),
      (∃ b, x.map f = .ok b) ↔ ∃ a, x = .ok a := by
    intro α β x f
    cases x <;> simp [Except.map]
  unfold Statement.parse
  by_cases hc : command.toLower = "dat"
  · simp only [if_pos hc, hmap, data_iff, statement_data hc]
    constructor
    · rintro ⟨items, tokens, hitems, hdata, h⟩
      exact ⟨tokens, ⟨items, hitems, hdata⟩, h⟩
    · rintro ⟨tokens, ⟨items, hitems, hdata⟩, h⟩
      exact ⟨items, tokens, hitems, hdata, h⟩
  · rw [if_neg hc]
    rcases ho : OpCode.ofName? command with _ | op | number
    · simp [not_statement hc ho]
    · simp only [hmap, parseBasic_iff, statement_basic hc ho]
      constructor
      · rintro ⟨a, b, ha, hb, h⟩
        exact ⟨_, ⟨a, b, ha, hb, rfl⟩, h⟩
      · rintro ⟨_, ⟨a, b, ha, hb, rfl⟩, h⟩
        exact ⟨a, b, ha, hb, h⟩
    · simp only [hmap, parseExtended_iff, statement_extended hc ho]

/-! ## Lines -/

/-- Only lines of the grammar can be read, and their labels are marked in order. -/
theorem line_of_parseFrom {before : List String} {lexemes : List Lexeme}
    {statement? : Option (Dcpu16.Statement String)}
    (h : (Line.parseFrom before lexemes).body = .ok statement?) :
    ∃ marks tokens, (Line.parseFrom before lexemes).marks = before.reverse ++ marks ∧
      Line marks tokens ∧ lexemes = tokens.map .ok := by
  fun_induction Line.parseFrom before lexemes with
  | case1 before => exact ⟨[], [], (List.append_nil _).symm, .empty, rfl⟩
  | case2 before name rest ih =>
      obtain ⟨marks, tokens, hmarks, hline, rfl⟩ := ih h
      refine ⟨name :: marks, _, ?_, .mark name hline, rfl⟩
      rw [hmarks, List.reverse_cons, List.append_assoc, List.singleton_append]
  | case3 => exact nomatch h
  | case4 before command rest =>
      obtain ⟨statement, hread, -⟩ := Except.map_eq_ok.mp h
      obtain ⟨tokens, hstatement, rfl⟩ := statement_iff.mp ⟨statement, hread⟩
      exact ⟨[], _, (List.append_nil _).symm, .statement hstatement, rfl⟩
  | case5 => exact nomatch h

/-- Every line of the grammar can be read. -/
theorem parseFrom_of_line {marks : List String} {tokens : List Token} (h : Line marks tokens)
    (before : List String) :
    ∃ statement?, Line.parseFrom before (tokens.map .ok) =
      ⟨before.reverse ++ marks, .ok statement?⟩ := by
  induction h generalizing before with
  | empty => exact ⟨none, by simp [Line.parseFrom]⟩
  | @statement tokens hstatement =>
      obtain ⟨command, rest, rfl⟩ : ∃ command rest, tokens = .ident command :: rest := by
        cases hstatement <;> exact ⟨_, _, rfl⟩
      obtain ⟨statement, hread⟩ := statement_iff.mpr ⟨rest, hstatement, rfl⟩
      exact ⟨some statement, by simp [Line.parseFrom, hread, Except.map]⟩
  | mark name _ ih =>
      obtain ⟨statement?, hread⟩ := ih (name :: before)
      exact ⟨statement?, by simp [Line.parseFrom, hread]⟩

/-- A line can be read if and only if its tokens are those of a line of the grammar. -/
theorem line_iff {marks : List String} {lexemes : List Lexeme} :
    (∃ statement?, Line.ofLexemes lexemes = ⟨marks, .ok statement?⟩) ↔
      ∃ tokens, lexemes = tokens.map .ok ∧ Line marks tokens := by
  constructor
  · rintro ⟨statement?, h⟩
    have hbody : (Line.parseFrom [] lexemes).body = .ok statement? := congrArg Line.body h
    obtain ⟨marks', tokens, hmarks, hline, hlexemes⟩ := line_of_parseFrom hbody
    have hsame : marks' = marks := hmarks.symm.trans (congrArg Line.marks h)
    exact ⟨tokens, hlexemes, hsame ▸ hline⟩
  · rintro ⟨tokens, rfl, hline⟩
    exact parseFrom_of_line hline []

end Grammar

end Dcpu16
