import Dcpu16.Proofs.Line.Grammar

/-!
# Labels of tokens

An identifier that is no mark and no command stands for a label if its name is not reserved.  The
labels of what is read are those of the tokens that it is read from, in their order: `Token.label?`
says which these are, and there is a lemma for each thing that a token can become a part of.
-/

namespace Dcpu16

/-- The label that a token stands for where it is no mark and no command. -/
def Token.label? : Token → Option String
  | .ident name =>
    match Name.ofString name with
    | .label name => some name
    | .register _ | .special _ => none
  | _ => none

/-- Only an identifier stands for a label, and the label has its name. -/
theorem Token.eq_ident_of_label? {t : Token} {name : String} (h : t.label? = some name) :
    t = .ident name := by
  cases t with
  | ident word =>
      have hword := Grammar.ofString_spec word
      rw [label?] at h
      cases hof : Name.ofString word with
      | label l =>
          rw [hof] at h hword
          rw [← Option.some.inj h, hword.1]
      | register r =>
          rw [hof] at h
          cases h
      | special s =>
          rw [hof] at h
          cases h
  | _ => cases h

theorem Token.labels_cons (t : Token) (ts : List Token) :
    (t :: ts).filterMap Token.label? = t.label?.toList ++ ts.filterMap Token.label? := by
  rw [List.filterMap_cons]
  cases t.label? <;> rfl

/-! ## Operands -/

namespace BracketSum

variable {sum sum' : BracketSum} {t : Token}

/-- What a term does that can be added to a sum. -/
theorem addTerm_cases (h : sum.addTerm t = .ok sum') :
    (∃ w, (t = .number w ∨ t = .char w) ∧ sum' = { sum with offset := sum.offset + w }) ∨
    (∃ name r, t = .ident name ∧ Name.ofString name = .register r ∧ sum.register? = none ∧
      sum' = { sum with register? := some r }) ∨
    ∃ name l, t = .ident name ∧ Name.ofString name = .label l ∧ sum.label? = none ∧
      sum' = { sum with label? := some l } := by
  cases t with
  | number w => exact .inl ⟨w, .inl rfl, (Except.ok.inj h).symm⟩
  | char w => exact .inl ⟨w, .inr rfl, (Except.ok.inj h).symm⟩
  | ident name =>
      rw [addTerm, addName] at h
      split at h
      · next r hof =>
        split at h
        · cases h
        · next hr =>
          exact .inr (.inl ⟨name, r, rfl, hof, Option.not_isSome_iff_eq_none.mp hr,
            (Except.ok.inj h).symm⟩)
      · cases h
      · next l hof =>
        split at h
        · cases h
        · next hl =>
          exact .inr (.inr ⟨name, l, rfl, hof, Option.not_isSome_iff_eq_none.mp hl,
            (Except.ok.inj h).symm⟩)
  | _ => cases h

/-- A term brings its label into a sum. -/
theorem label?_addTerm (h : sum.addTerm t = .ok sum') :
    sum'.label?.toList = sum.label?.toList ++ t.label?.toList := by
  rcases addTerm_cases h with ⟨w, rfl | rfl, rfl⟩ | ⟨name, r, rfl, hof, -, rfl⟩ |
    ⟨name, l, rfl, hof, hnone, rfl⟩
  · exact (List.append_nil _).symm
  · exact (List.append_nil _).symm
  · rw [Token.label?, hof]
    exact (List.append_nil _).symm
  · rw [Token.label?, hof, hnone]
    rfl

theorem label?_operand (sum : BracketSum) : sum.operand.label? = sum.label? := by
  obtain ⟨register?, label?, offset⟩ := sum
  cases register? with
  | none => rfl
  | some r =>
      show (if offset = 0 ∧ label? = none then _ else _ : Operand String).label? = label?
      split
      · next h => exact h.2.symm
      · rfl

end BracketSum

/-- A name as an operand has the label that its identifier stands for. -/
theorem Operand.label?_ofName (name : String) :
    (Operand.ofName name).label? = (Token.ident name).label? := by
  rw [Operand.ofName, Token.label?]
  cases Name.ofString name <;> rfl

/-! ## Data -/

theorem Item.label?_ofToken? {t : Token} {item : Item String} (h : Item.ofToken? t = some item) :
    item.label? = t.label? := by
  cases t with
  | number w =>
      obtain rfl := Option.some.inj h
      rfl
  | char w =>
      obtain rfl := Option.some.inj h
      rfl
  | text s =>
      obtain rfl := Option.some.inj h
      rfl
  | ident name =>
      rw [Item.ofToken?] at h
      rw [Token.label?]
      cases hof : Name.ofString name with
      | register r =>
          rw [hof] at h
          cases h
      | special s =>
          rw [hof] at h
          cases h
      | label l =>
          rw [hof] at h
          obtain rfl := Option.some.inj h
          rfl
  | _ => cases h

end Dcpu16
