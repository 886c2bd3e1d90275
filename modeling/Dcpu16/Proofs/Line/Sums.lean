import Dcpu16.Proofs.Line.Renaming
import Dcpu16.Proofs.Token.Passage

/-!
# Sums in brackets

What a sum in brackets stands for, apart from how it is read: its register, its label, and its
constants added up and cut to a word.  None of these depends on the order of the terms, so that a
line means the same with the terms of its sums in any other order, whatever else it holds and
whether it can be read or not.  `Sums.Reordered` is this relation on the tokens of lines, and each
reader takes tokens that are so related to the same result and leaves such tokens behind.

Main statements: `Sums.parse_bracketed` and `Sums.Reordered.ofLexemes_eq`.
-/

namespace Dcpu16

/-- The register that a token stands for where it is no mark and no command. -/
def Token.register? : Token → Option Register
  | .ident name =>
    match Name.ofString name with
    | .register r => some r
    | .special _ | .label _ => none
  | _ => none

/-- The constant that a token stands for; a name adds none. -/
def Token.constant : Token → Nat
  | .number w | .char w => w.toNat
  | _ => 0

namespace Sums

/-- The constants of a sum, added up without a bound. -/
def total (terms : List Token) : Nat := (terms.map Token.constant).sum

/-- The operand that the sum of some terms stands for.  It has no trailing word if there is nothing
to add to its register. -/
def operand (terms : List Token) : Operand String :=
  match terms.findSome? Token.register?, terms.findSome? Token.label? with
  | some r, none =>
    if total terms % 0x10000 = 0 then .indirect r else .indexed r ⟨(total terms).toUInt16, none⟩
  | some r, some label => .indexed r ⟨(total terms).toUInt16, some label⟩
  | none, label? => .absolute ⟨(total terms).toUInt16, label?⟩

def bracketed (terms : List Token) : List Token :=
  .openBracket :: (terms.intersperse .plus ++ [.closeBracket])

/-! ## Adding up terms -/

variable {t : Token} {terms terms' : List Token} {sum sum' : BracketSum}

theorem total_cons (t : Token) (terms : List Token) :
    total (t :: terms) = t.constant + total terms := rfl

/-- A term brings its register into the sum. -/
theorem register?_addTerm (h : sum.addTerm t = .ok sum') :
    sum'.register?.toList = sum.register?.toList ++ t.register?.toList := by
  rcases BracketSum.addTerm_cases h with ⟨w, rfl | rfl, rfl⟩ | ⟨name, r, rfl, hof, hnone, rfl⟩ |
    ⟨name, l, rfl, hof, -, rfl⟩
  · exact (List.append_nil _).symm
  · exact (List.append_nil _).symm
  · rw [Token.register?, hof, hnone]
    rfl
  · rw [Token.register?, hof]
    exact (List.append_nil _).symm

/-- A term brings its constant into the sum, cut to a word. -/
theorem offset_addTerm (h : sum.addTerm t = .ok sum') :
    sum'.offset = sum.offset + t.constant.toUInt16 := by
  rcases BracketSum.addTerm_cases h with ⟨w, rfl | rfl, rfl⟩ | ⟨name, r, rfl, -, -, rfl⟩ |
    ⟨name, l, rfl, -, -, rfl⟩
  · exact congrArg (sum.offset + ·) UInt16.ofNat_toNat.symm
  · exact congrArg (sum.offset + ·) UInt16.ofNat_toNat.symm
  · exact (UInt16.add_zero _).symm
  · exact (UInt16.add_zero _).symm

/-- What there is in a sum once some more terms have been added. -/
theorem foldlM_addTerm (h : terms.foldlM BracketSum.addTerm sum = .ok sum') :
    sum'.register?.toList = sum.register?.toList ++ terms.filterMap Token.register? ∧
      sum'.offset = sum.offset + (total terms).toUInt16 := by
  induction terms generalizing sum with
  | nil =>
      obtain rfl := Except.ok.inj h
      exact ⟨(List.append_nil _).symm, (UInt16.add_zero _).symm⟩
  | cons t terms ih =>
      rw [List.foldlM_cons] at h
      obtain ⟨sum₁, hadd, hfold⟩ := Except.bind_eq_ok.mp h
      obtain ⟨hregister, hoffset⟩ := ih hfold
      constructor
      · rw [hregister, register?_addTerm hadd, List.append_assoc, List.filterMap_cons]
        cases t.register? <;> rfl
      · rw [hoffset, offset_addTerm hadd, total_cons, UInt16.add_assoc]
        exact congrArg (sum.offset + ·) (UInt16.ofNat_add ..).symm

/-- What at most one term has is found at the first that has it. -/
theorem eq_findSome? {α : Type} {f : Token → Option α} {x? : Option α}
    (h : x?.toList = terms.filterMap f) : x? = terms.findSome? f := by
  rw [← List.head?_filterMap, ← h]
  cases x? <;> rfl

/-- A sum of which all terms have been read is the operand that its terms stand for. -/
theorem operand_of_foldlM (h : terms.foldlM BracketSum.addTerm {} = .ok sum) :
    sum.operand = operand terms := by
  obtain ⟨hregister, hoffset⟩ := foldlM_addTerm h
  have hlabel := (Renaming.foldlM_addTerm h).1
  have hzero : sum.offset = 0 ↔ total terms % 0x10000 = 0 := by
    rw [hoffset, UInt16.zero_add, ← UInt16.toNat_inj]
    exact Iff.rfl
  rw [UInt16.zero_add] at hoffset
  rw [operand, ← eq_findSome? hregister, ← eq_findSome? hlabel, ← hoffset, BracketSum.operand]
  cases sum.register? with
  | none => rfl
  | some r =>
      cases hl : sum.label? with
      | none => simp [hzero]
      | some label => simp

/-- A sum in brackets is read as the operand that its terms stand for. -/
theorem parse_bracketed (h : Grammar.Sum terms) (rest : List Lexeme) :
    Operand.parse ((bracketed terms).map .ok ++ rest) = .ok (operand terms, rest) := by
  obtain ⟨hne, sum, hfold⟩ := Grammar.sum_iff.mp h
  exact Grammar.bracketSum_iff.mpr ⟨terms, sum, hne, hfold, (operand_of_foldlM hfold).symm, rfl⟩

/-! ## The order of the terms -/

theorem sum_perm (hperm : terms.Perm terms') (h : Grammar.Sum terms) : Grammar.Sum terms' where
  ne_nil := by
    rintro rfl
    exact h.ne_nil hperm.eq_nil
  isTerm term ht := h.isTerm term (hperm.mem_iff.mpr ht)
  register := by
    rw [← hperm.countP_eq]
    exact h.register
  label := by
    rw [← hperm.countP_eq]
    exact h.label
  special term ht := h.special term (hperm.mem_iff.mpr ht)

theorem total_perm (hperm : terms.Perm terms') : total terms = total terms' :=
  (hperm.map Token.constant).sum_nat

/-- Where only one token can be found the order does not matter. -/
theorem findSome?_perm {α : Type} {f : Token → Option α} {x? : Option α}
    (hperm : terms.Perm terms') (h : x?.toList = terms.filterMap f) :
    terms.findSome? f = terms'.findSome? f := by
  have hfound := hperm.filterMap f
  rw [← h] at hfound
  refine (eq_findSome? h).symm.trans (eq_findSome? ?_)
  cases x? with
  | none => exact hfound.nil_eq
  | some x => exact (List.perm_singleton.mp hfound.symm).symm

/-- The operand of a sum does not depend on the order of its terms. -/
theorem operand_perm (hperm : terms.Perm terms') (h : Grammar.Sum terms) :
    operand terms = operand terms' := by
  obtain ⟨-, sum, hfold⟩ := Grammar.sum_iff.mp h
  rw [operand, operand, total_perm hperm, findSome?_perm hperm (foldlM_addTerm hfold).1,
    findSome?_perm hperm (Renaming.foldlM_addTerm hfold).1]

/-- Lines that differ in the order of the terms in their sums. -/
inductive Reordered : List Lexeme → List Lexeme → Prop
  | nil : Reordered [] []
  | cons (lexeme : Lexeme) {lexemes lexemes' : List Lexeme} : Reordered lexemes lexemes' →
      Reordered (lexeme :: lexemes) (lexeme :: lexemes')
  | sum {terms terms' : List Token} {lexemes lexemes' : List Lexeme} : Grammar.Sum terms →
      terms.Perm terms' → Reordered lexemes lexemes' →
      Reordered ((bracketed terms).map .ok ++ lexemes) ((bracketed terms').map .ok ++ lexemes')

namespace Reordered

variable {lexeme : Lexeme} {lexemes lexemes' : List Lexeme}

theorem refl (lexemes : List Lexeme) : Reordered lexemes lexemes := by
  induction lexemes with
  | nil => exact .nil
  | cons lexeme lexemes ih => exact .cons lexeme ih

theorem symm (h : Reordered lexemes lexemes') : Reordered lexemes' lexemes := by
  induction h with
  | nil => exact .nil
  | cons lexeme _ ih => exact .cons lexeme ih
  | sum hsum hperm _ ih => exact .sum (sum_perm hperm hsum) hperm.symm ih

theorem append_left (front : List Lexeme) (h : Reordered lexemes lexemes') :
    Reordered (front ++ lexemes) (front ++ lexemes') := by
  induction front with
  | nil => exact h
  | cons lexeme front ih => exact .cons lexeme ih

/-- The first token stays, as a sum keeps its opening bracket. -/
theorem head?_eq (h : Reordered lexemes lexemes') : lexemes'.head? = lexemes.head? := by
  cases h <;> rfl

/-- The same fault is found in front of lines that start alike. -/
theorem unexpected_eq (h : Reordered lexemes lexemes') (expected : List Token.Kind) :
    Fault.unexpected expected lexemes' = Fault.unexpected expected lexemes := by
  cases h with
  | nil => rfl
  | cons lexeme => cases lexeme <;> rfl
  | sum => rfl

theorem nil_inv (h : Reordered [] lexemes') : lexemes' = [] :=
  List.head?_eq_none_iff.mp h.head?_eq

theorem cons_head (h : Reordered (lexeme :: lexemes) lexemes') :
    ∃ rest, lexemes' = lexeme :: rest := by
  cases lexemes' with
  | nil => exact nomatch h.head?_eq
  | cons lexeme' rest => exact ⟨rest, by rw [Option.some.inj h.head?_eq]⟩

/-- Behind a token that opens no sum the lines go on in the same way. -/
theorem cons_inv (h : Reordered (lexeme :: lexemes) lexemes') (hl : lexeme ≠ .ok .openBracket) :
    ∃ rest, lexemes' = lexeme :: rest ∧ Reordered lexemes rest := by
  generalize hfirst : lexeme :: lexemes = first at h
  cases h with
  | nil => cases hfirst
  | cons lexeme' hrest =>
      obtain ⟨rfl, rfl⟩ := List.cons.inj hfirst
      exact ⟨_, rfl, hrest⟩
  | sum => exact absurd (List.cons.inj hfirst).1 hl

end Reordered

/-! ## Readers -/

/-- Two readers have the same result, and what they leave differs in the order of terms only. -/
inductive Alike {α : Type} : Except Fault (α × List Lexeme) → Except Fault (α × List Lexeme) → Prop
  | ok (a : α) {rest rest' : List Lexeme} : Reordered rest rest' →
      Alike (.ok (a, rest)) (.ok (a, rest'))
  | error (fault : Fault) : Alike (.error fault) (.error fault)

/-- What reads on behind alike results gives the same, if it does so on reordered tokens. -/
theorem Alike.bind_eq {α β : Type} {x x' : Except Fault (α × List Lexeme)}
    {f : α × List Lexeme → Except Fault β} (h : Alike x x')
    (hf : ∀ a rest rest', Reordered rest rest' → f (a, rest) = f (a, rest')) :
    x >>= f = x' >>= f := by
  cases h with
  | ok a hrest => exact hf a _ _ hrest
  | error fault => rfl

variable {lexemes lexemes' : List Lexeme}

/-- No term is an opening bracket, so that sums are not nested. -/
theorem addTerm_ne (h : sum.addTerm t = .ok sum') : Except.ok t ≠ (.ok .openBracket : Lexeme) := by
  rintro ⟨⟩
  cases h

/-- Behind an opening bracket the same terms follow on both sides, as sums are not nested. -/
theorem alike_bracketSum (sum : BracketSum) (h : Reordered lexemes lexemes') :
    Alike (sum.parse lexemes) (sum.parse lexemes') := by
  fun_induction BracketSum.parse sum lexemes generalizing lexemes' with
  | case1 sum token rest cause hadd =>
      obtain ⟨rest', rfl⟩ := h.cons_head
      rw [BracketSum.parse, hadd]
      exact .error _
  | case2 sum token sum₁ hadd rest ih =>
      obtain ⟨rest', rfl, hrest⟩ := h.cons_inv (addTerm_ne hadd)
      obtain ⟨rest'', rfl, hrest'⟩ := hrest.cons_inv (by rintro ⟨⟩)
      rw [BracketSum.parse, hadd]
      exact ih hrest'
  | case3 sum token sum₁ hadd rest =>
      obtain ⟨rest', rfl, hrest⟩ := h.cons_inv (addTerm_ne hadd)
      obtain ⟨rest'', rfl, hrest'⟩ := hrest.cons_inv (by rintro ⟨⟩)
      rw [BracketSum.parse, hadd]
      exact .ok _ hrest'
  | case4 sum token sum₁ hadd rest hplus hclose =>
      obtain ⟨rest', rfl, hrest⟩ := h.cons_inv (addTerm_ne hadd)
      rw [BracketSum.parse, hadd, ← hrest.unexpected_eq]
      simp only
      split
      · obtain ⟨left, rfl⟩ := hrest.symm.cons_head
        exact (hplus left rfl).elim
      · obtain ⟨left, rfl⟩ := hrest.symm.cons_head
        exact (hclose left rfl).elim
      · exact .error _
  | case5 sum lexemes hnot =>
      rw [← h.unexpected_eq]
      cases lexemes' with
      | nil => exact .error _
      | cons lexeme rest =>
          cases lexeme with
          | error e => exact .error _
          | ok token =>
              obtain ⟨left, rfl⟩ := h.symm.cons_head
              exact (hnot token left rfl).elim

/-- An operand is read in the same way, also from a sum with its terms in another order. -/
theorem alike_operand (h : Reordered lexemes lexemes') :
    Alike (Operand.parse lexemes) (Operand.parse lexemes') := by
  cases h with
  | nil => exact .error _
  | cons lexeme hrest =>
      cases lexeme with
      | error e => exact .error _
      | ok token =>
          cases token with
          | number w => exact .ok _ hrest
          | char w => exact .ok _ hrest
          | ident name => exact .ok _ hrest
          | openBracket => exact alike_bracketSum {} hrest
          | _ => exact .error _
  | sum hsum hperm hrest =>
      rw [parse_bracketed hsum, parse_bracketed (sum_perm hperm hsum), operand_perm hperm hsum]
      exact .ok _ hrest

theorem alike_comma {α : Type} (h : Reordered lexemes lexemes')
    {next : List Lexeme → Except Fault α}
    (hnext : ∀ rest rest', Reordered rest rest' → next rest = next rest') :
    (Line.parseComma lexemes >>= next) = (Line.parseComma lexemes' >>= next) := by
  cases h with
  | nil => rfl
  | cons lexeme hrest =>
      cases lexeme with
      | error e => rfl
      | ok token =>
          cases token with
          | comma => exact hnext _ _ hrest
          | _ => rfl
  | sum => rfl

theorem parseEnd_eq (h : Reordered lexemes lexemes') :
    Line.parseEnd lexemes = Line.parseEnd lexemes' := by
  cases h with
  | nil => rfl
  | cons lexeme => cases lexeme <;> rfl
  | sum => rfl

theorem parseBasic_eq (op : BasicOp) (h : Reordered lexemes lexemes') :
    Instruction.parseBasic op lexemes = Instruction.parseBasic op lexemes' := by
  refine (alike_operand h).bind_eq fun a rest rest' hrest ↦ ?_
  dsimp only
  congr 2
  refine alike_comma hrest fun left left' hleft ↦ ?_
  refine (alike_operand hleft).bind_eq fun b last last' hlast ↦ ?_
  dsimp only
  rw [parseEnd_eq hlast]

theorem parseExtended_eq (number : Fin 64) (h : Reordered lexemes lexemes') :
    Instruction.parseExtended number lexemes = Instruction.parseExtended number lexemes' := by
  refine (alike_operand h).bind_eq fun a rest rest' hrest ↦ ?_
  dsimp only
  rw [parseEnd_eq hrest]

/-- Data has no sums, and so reordered tokens go wrong alike. -/
theorem parseItems_eq (found : List (Item String)) (h : Reordered lexemes lexemes') :
    Item.parseFrom found lexemes = Item.parseFrom found lexemes' := by
  fun_induction Item.parseFrom found lexemes generalizing lexemes' with
  | case1 found => rw [h.nil_inv, Item.parseFrom]
  | case2 found e rest =>
      obtain ⟨rest', rfl⟩ := h.cons_head
      rw [Item.parseFrom]
  | case3 found token rest hitem =>
      obtain ⟨rest', rfl⟩ := h.cons_head
      rw [Item.parseFrom, hitem]
  | case4 found token item hitem =>
      obtain ⟨rest', rfl, hrest⟩ := h.cons_inv (by rintro ⟨⟩; cases hitem)
      rw [hrest.nil_inv, Item.parseFrom, hitem]
  | case5 found token item hitem rest ih =>
      obtain ⟨rest', rfl, hrest⟩ := h.cons_inv (by rintro ⟨⟩; cases hitem)
      obtain ⟨rest'', rfl, hrest'⟩ := hrest.cons_inv (by rintro ⟨⟩)
      rw [Item.parseFrom, hitem]
      exact ih hrest'
  | case6 found token item hitem rest hnil hcomma =>
      obtain ⟨rest', rfl, hrest⟩ := h.cons_inv (by rintro ⟨⟩; cases hitem)
      rw [Item.parseFrom, hitem, ← hrest.unexpected_eq]
      simp only
      split
      · exact (hnil hrest.symm.nil_inv).elim
      · obtain ⟨left, rfl⟩ := hrest.symm.cons_head
        exact (hcomma left rfl).elim
      · rfl

theorem parseStatement_eq (command : String) (h : Reordered lexemes lexemes') :
    Statement.parse command lexemes = Statement.parse command lexemes' := by
  rw [Statement.parse, Statement.parse, parseItems_eq [] h]
  rcases OpCode.ofName? command with _ | op | number
  · rfl
  · simp only [parseBasic_eq op h]
  · simp only [parseExtended_eq number h]

/-- Lines are read alike from reordered tokens, whether they can be read or not. -/
theorem parseFrom_eq (marks : List String) (h : Reordered lexemes lexemes') :
    Line.parseFrom marks lexemes = Line.parseFrom marks lexemes' := by
  fun_induction Line.parseFrom marks lexemes generalizing lexemes' with
  | case1 marks => rw [h.nil_inv, Line.parseFrom]
  | case2 marks name rest ih =>
      obtain ⟨rest', rfl, hrest⟩ := h.cons_inv (by rintro ⟨⟩)
      obtain ⟨rest'', rfl, hrest'⟩ := hrest.cons_inv (by rintro ⟨⟩)
      exact ih hrest'
  | case3 marks rest hnot =>
      obtain ⟨rest', rfl, hrest⟩ := h.cons_inv (by rintro ⟨⟩)
      rw [← hrest.unexpected_eq, Line.parseFrom]
      rintro name left rfl
      obtain ⟨left', rfl⟩ := hrest.symm.cons_head
      exact hnot name left' rfl
  | case4 marks command rest =>
      obtain ⟨rest', rfl, hrest⟩ := h.cons_inv (by rintro ⟨⟩)
      rw [Line.parseFrom, parseStatement_eq command hrest]
  | case5 marks rest hnil hmark hcolon hident =>
      cases h with
      | nil => exact (hnil rfl).elim
      | cons lexeme =>
          cases lexeme with
          | error e => rfl
          | ok token =>
              cases token with
              | colon => exact (hcolon _ rfl).elim
              | ident command => exact (hident command _ rfl).elim
              | _ => rfl
      | sum => rfl

/-- A line is read in the same way with the terms of its sums in any order. -/
theorem Reordered.ofLexemes_eq (h : Reordered lexemes lexemes') :
    Line.ofLexemes lexemes = Line.ofLexemes lexemes' :=
  parseFrom_eq [] h

end Sums

end Dcpu16
