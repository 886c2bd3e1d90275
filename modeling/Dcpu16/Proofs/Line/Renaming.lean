import Dcpu16.Proofs.Line.Labels
import Dcpu16.Proofs.Line.Rewriting
import Dcpu16.Proofs.Relabel

/-!
# Lines with other labels

A reader that is given renamed tokens does with them what it did before.  `Renames` says this of
readers that go up to the end of the line, together with which of the tokens are labels of what was
read.  Main statement: `Renaming.ofString_spell`, by which a line that can be read is read after a
renaming too, with the labels renamed and nothing else changed.
-/

namespace Dcpu16

def Name.map (ρ : String → String) : Name → Name
  | .label name => .label (ρ name)
  | name => name

def BracketSum.map (ρ : String → String) (sum : BracketSum) : BracketSum :=
  { sum with label? := sum.label?.map ρ }

namespace Renaming

variable {ρ : String → String} {t : Token} {ts : List Token}

/-! ## Names -/

/-- The names that are not reserved are those of labels. -/
theorem isReserved_eq (name : String) :
    Grammar.isReserved name = !Grammar.isLabel (.ident name) := by
  simp [Grammar.isReserved, Grammar.isLabel, Bool.decide_and, Bool.decide_or]

theorem ofString_of_free {name : String} (h : Grammar.isReserved name = false) :
    Name.ofString name = .label name := by
  have hname := Grammar.ofString_spec name
  rw [isReserved_eq, Bool.not_eq_false'] at h
  cases hof : Name.ofString name with
  | label l =>
      rw [hof] at hname
      rw [hname.1]
  | register r =>
      rw [hof] at hname
      cases h.symm.trans hname.2.2
  | special s =>
      rw [hof] at hname
      cases h.symm.trans hname.2.2

/-- A reserved name is not that of a label. -/
theorem ofString_ne_label {name : String} (h : Grammar.isReserved name) (l : String) :
    Name.ofString name ≠ .label l := by
  have hname := Grammar.ofString_spec name
  intro hof
  rw [hof] at hname
  rw [isReserved_eq, hname.2.2.2] at h
  cases h

/-- What a name stands for is renamed with it. -/
theorem ofString_rename {name : String} (h : Suits ρ name) :
    Name.ofString (ρ name) = (Name.ofString name).map ρ := by
  cases hr : Grammar.isReserved name with
  | true =>
      rw [h.reserved hr]
      cases hof : Name.ofString name with
      | register r => rfl
      | special s => rfl
      | label l => exact absurd hof (ofString_ne_label hr l)
  | false =>
      rw [ofString_of_free (h.free hr), ofString_of_free hr]
      rfl

/-- An identifier that is no label is reserved. -/
theorem mem_labels {name : String} (h : .ident name ∈ ts) (hn : Grammar.isReserved name = false) :
    name ∈ ts.filterMap Token.label? := by
  refine List.mem_filterMap.mpr ⟨_, h, ?_⟩
  rw [Token.label?, ofString_of_free hn]

/-- A reader that goes up to the end of the line has read these labels, and from the renamed tokens
it reads what is renamed. -/
def Renames {α : Type} (reader : List Lexeme → Except Fault α) (lexemes : List Lexeme)
    (labels : List String) (renamed : (String → String) → α) : Prop :=
  ∃ ts : List Token, lexemes = ts.map .ok ∧ ts.filterMap Token.label? = labels ∧
    ∀ ρ, (∀ name, .ident name ∈ ts → Suits ρ name) →
      reader ((ts.map (Token.map ρ)).map .ok) = .ok (renamed ρ)

theorem Renames.map {α β : Type} {reader : List Lexeme → Except Fault α} {lexemes : List Lexeme}
    {labels : List String} {renamed : (String → String) → α}
    (h : Renames reader lexemes labels renamed) (f : α → β) :
    Renames (fun lexemes ↦ (reader lexemes).map f) lexemes labels fun ρ ↦ f (renamed ρ) := by
  obtain ⟨ts, hts, hlabels, hmap⟩ := h
  refine ⟨ts, hts, hlabels, fun ρ hs ↦ ?_⟩
  exact Except.map_eq_ok.mpr ⟨_, hmap ρ hs, rfl⟩

/-! ## Sums -/

variable {sum sum' : BracketSum}

/-- A renamed term is added to the renamed sum. -/
theorem addTerm_map (h : sum.addTerm t = .ok sum') (hs : ∀ name, t = .ident name → Suits ρ name) :
    (sum.map ρ).addTerm (t.map ρ) = .ok (sum'.map ρ) := by
  rcases BracketSum.addTerm_cases h with ⟨w, rfl | rfl, rfl⟩ | ⟨name, r, rfl, hof, hnone, rfl⟩ |
    ⟨name, l, rfl, hof, hnone, rfl⟩
  · rfl
  · rfl
  · rw [Token.map, BracketSum.addTerm, BracketSum.addName, ofString_rename (hs name rfl), hof]
    simp [Name.map, BracketSum.map, hnone]
  · rw [Token.map, BracketSum.addTerm, BracketSum.addName, ofString_rename (hs name rfl), hof]
    simp [Name.map, BracketSum.map, hnone]

/-- The label of a sum is that of its terms, and the renamed terms add up to the renamed sum. -/
theorem foldlM_addTerm (h : ts.foldlM BracketSum.addTerm sum = .ok sum') :
    sum'.label?.toList = sum.label?.toList ++ ts.filterMap Token.label? ∧
      ∀ ρ, (∀ name, .ident name ∈ ts → Suits ρ name) →
        (ts.map (Token.map ρ)).foldlM BracketSum.addTerm (sum.map ρ) = .ok (sum'.map ρ) := by
  induction ts generalizing sum with
  | nil =>
      obtain rfl := Except.ok.inj h
      exact ⟨(List.append_nil _).symm, fun ρ _ ↦ rfl⟩
  | cons t ts ih =>
      rw [List.foldlM_cons] at h
      obtain ⟨sum₁, hadd, hfold⟩ := Except.bind_eq_ok.mp h
      obtain ⟨hlabels, hmap⟩ := ih hfold
      constructor
      · rw [hlabels, BracketSum.label?_addTerm hadd, List.append_assoc, Token.labels_cons]
      · intro ρ hs
        have hstep := addTerm_map hadd fun name ht ↦ hs name (ht ▸ List.mem_cons_self)
        rw [List.map_cons, List.foldlM_cons, hstep]
        exact hmap ρ fun name hn ↦ hs name (List.mem_cons_of_mem t hn)

theorem operand_map (ρ : String → String) (sum : BracketSum) :
    (sum.map ρ).operand = sum.operand.map ρ := by
  obtain ⟨register?, label?, offset⟩ := sum
  cases register? with
  | none => rfl
  | some r =>
      simp only [BracketSum.map, BracketSum.operand, Option.map_eq_none_iff]
      split <;> rfl

/-! ## Operands -/

theorem filterMap_intersperse (h : t.label? = none) (ts : List Token) :
    (ts.intersperse t).filterMap Token.label? = ts.filterMap Token.label? := by
  induction ts with
  | nil => rfl
  | cons t' ts ih =>
      cases ts with
      | nil => rfl
      | cons t'' ts =>
          rw [List.intersperse_cons_cons, Token.labels_cons, List.filterMap_cons_none h, ih,
            Token.labels_cons t']

theorem map_intersperse (f : Token → Token) (ts : List Token) :
    (ts.intersperse t).map f = (ts.map f).intersperse (f t) := by
  induction ts with
  | nil => rfl
  | cons t' ts ih =>
      cases ts with
      | nil => rfl
      | cons t'' ts =>
          rw [List.intersperse_cons_cons, List.map_cons, List.map_cons, ih]
          rfl

theorem mem_intersperse {t' : Token} (h : t' ∈ ts) : t' ∈ ts.intersperse t := by
  induction ts with
  | nil => exact h
  | cons t'' ts ih =>
      cases ts with
      | nil => exact h
      | cons t₁ ts =>
          rw [List.intersperse_cons_cons]
          rcases List.mem_cons.mp h with rfl | h
          · exact List.mem_cons_self
          · exact List.mem_cons_of_mem _ (List.mem_cons_of_mem _ (ih h))

variable {lexemes left : List Lexeme}

/-- The tokens of an operand name its label, and can be renamed. -/
theorem operand_parse {operand : Operand String}
    (h : Operand.parse lexemes = .ok (operand, left)) :
    ∃ ts : List Token, lexemes = ts.map .ok ++ left ∧
      ts.filterMap Token.label? = operand.label?.toList ∧
      ∀ ρ, (∀ name, .ident name ∈ ts → Suits ρ name) → ∀ left',
        Operand.parse ((ts.map (Token.map ρ)).map .ok ++ left') = .ok (operand.map ρ, left') := by
  unfold Operand.parse at h
  split at h
  · next w rest =>
    obtain ⟨rfl, rfl⟩ := Prod.mk.inj (Except.ok.inj h)
    refine ⟨[.number w], rfl, ?_, fun ρ _ left' ↦ rfl⟩
    rw [Operand.label?_literal]
    rfl
  · next w rest =>
    obtain ⟨rfl, rfl⟩ := Prod.mk.inj (Except.ok.inj h)
    refine ⟨[.char w], rfl, ?_, fun ρ _ left' ↦ rfl⟩
    rw [Operand.label?_literal]
    rfl
  · next name rest =>
    obtain ⟨rfl, rfl⟩ := Prod.mk.inj (Except.ok.inj h)
    refine ⟨[.ident name], rfl, ?_, ?_⟩
    · rw [Token.labels_cons, Token.label?, Operand.ofName]
      cases Name.ofString name <;> rfl
    · intro ρ hs left'
      show Except.ok (Operand.ofName (ρ name), left') = _
      rw [Operand.ofName, ofString_rename (hs name List.mem_cons_self), Operand.ofName]
      cases Name.ofString name <;> rfl
  · next rest =>
    obtain ⟨terms, sum, hne, hfold, rfl, rfl⟩ := Grammar.bracketSum_iff.mp h
    obtain ⟨hlabels, hmap⟩ := foldlM_addTerm hfold
    refine ⟨.openBracket :: (terms.intersperse .plus ++ [.closeBracket]), rfl, ?_, ?_⟩
    · rw [List.filterMap_cons_none rfl, List.filterMap_append, filterMap_intersperse rfl,
        BracketSum.label?_operand, hlabels]
      exact List.append_nil _
    · intro ρ hs left'
      have hfold' := hmap ρ fun name hn ↦
        hs name (List.mem_cons_of_mem _ (List.mem_append_left _ (mem_intersperse hn)))
      have htokens : (terms.intersperse Token.plus ++ [Token.closeBracket]).map (Token.map ρ) =
          (terms.map (Token.map ρ)).intersperse Token.plus ++ [Token.closeBracket] := by
        rw [List.map_append, map_intersperse]
        rfl
      rw [List.map_cons, htokens]
      refine Grammar.bracketSum_iff.mpr ⟨_, sum.map ρ, ?_, hfold', (operand_map ρ sum).symm, rfl⟩
      rwa [Ne, List.map_eq_nil_iff]
  · cases h

/-! ## Data -/

theorem ofToken?_map {item : Item String} (h : Item.ofToken? t = some item)
    (hs : ∀ name, t = .ident name → Suits ρ name) :
    Item.ofToken? (t.map ρ) = some (item.map ρ) := by
  cases t with
  | number w =>
      obtain rfl := Option.some.inj h
      rfl
  | char w =>
      obtain rfl := Option.some.inj h
      rfl
  | text s =>
      obtain rfl := Option.some.inj h
      rfl
  | ident name =>
      rw [Item.ofToken?] at h
      rw [Token.map, Item.ofToken?, ofString_rename (hs name rfl)]
      cases hof : Name.ofString name with
      | register r =>
          rw [hof] at h
          cases h
      | special s =>
          rw [hof] at h
          cases h
      | label l =>
          rw [hof] at h
          obtain rfl := Option.some.inj h
          rfl
  | _ => cases h

theorem labels_reverse_cons (item : Item String) (found : List (Item String)) :
    (item :: found).reverse.filterMap Item.label? =
      found.reverse.filterMap Item.label? ++ item.label?.toList := by
  rw [List.reverse_cons, List.filterMap_append, List.filterMap_cons]
  cases item.label? <;> rfl

theorem items_parseFrom {found items : List (Item String)}
    (h : Item.parseFrom found lexemes = .ok items) :
    ∃ ts : List Token, lexemes = ts.map .ok ∧
      found.reverse.filterMap Item.label? ++ ts.filterMap Token.label? =
        items.filterMap Item.label? ∧
      ∀ ρ, (∀ name, .ident name ∈ ts → Suits ρ name) →
        Item.parseFrom (found.map (Item.map ρ)) ((ts.map (Token.map ρ)).map .ok) =
          .ok (items.map (Item.map ρ)) := by
  fun_induction Item.parseFrom found lexemes with
  | case1 found =>
      obtain rfl := Except.ok.inj h
      refine ⟨[], rfl, List.append_nil _, fun ρ _ ↦ ?_⟩
      rw [List.map_reverse]
      rfl
  | case2 => cases h
  | case3 => cases h
  | case4 found token item hitem =>
      obtain rfl := Except.ok.inj h
      have hlabel := Item.label?_ofToken? hitem
      refine ⟨[token], rfl, ?_, ?_⟩
      · rw [Token.labels_cons, ← hlabel, ← List.append_assoc, ← labels_reverse_cons]
        exact List.append_nil _
      · intro ρ hs
        rw [List.map_singleton, List.map_singleton, Item.parseFrom,
          ofToken?_map hitem fun name ht ↦ hs name (ht ▸ List.mem_cons_self), List.map_reverse]
        rfl
  | case5 found token item hitem rest ih =>
      obtain ⟨ts, rfl, hlabels, hitems⟩ := ih h
      have hlabel := Item.label?_ofToken? hitem
      refine ⟨token :: .comma :: ts, rfl, ?_, ?_⟩
      · rw [Token.labels_cons, List.filterMap_cons_none rfl, ← hlabel, ← List.append_assoc,
          ← labels_reverse_cons, hlabels]
      · intro ρ hs
        rw [List.map_cons, List.map_cons, List.map_cons, List.map_cons, Item.parseFrom,
          ofToken?_map hitem fun name ht ↦ hs name (ht ▸ List.mem_cons_self)]
        exact hitems ρ fun name hn ↦ hs name (List.mem_cons_of_mem _ (List.mem_cons_of_mem _ hn))
  | case6 => cases h

/-! ## Statements -/

theorem parseBasic_map {op : BasicOp} {i : Instruction String}
    (h : Instruction.parseBasic op lexemes = .ok i) :
    Renames (Instruction.parseBasic op) lexemes i.labels fun ρ ↦ i.map ρ := by
  simp only [Instruction.parseBasic, Except.bind_eq_ok, Except.mapError_eq_ok,
    Grammar.parseComma_iff, Grammar.parseEnd_iff, pure, Except.pure] at h
  obtain ⟨⟨a, _⟩, hreadA, b, ⟨_, rfl, ⟨b', _⟩, hreadB, _, rfl, hb⟩, hi⟩ := h
  obtain rfl := Except.ok.inj hb
  obtain rfl := Except.ok.inj hi
  obtain ⟨tsB, rfl, hlabelsB, hmapB⟩ := operand_parse hreadB
  obtain ⟨tsA, rfl, hlabelsA, hmapA⟩ := operand_parse hreadA
  refine ⟨tsA ++ .comma :: tsB, by simp, ?_, ?_⟩
  · rw [List.filterMap_append, List.filterMap_cons_none rfl, hlabelsA, hlabelsB,
      Instruction.labels_basic]
  · intro ρ hs
    have hA := hmapA ρ fun name hn ↦ hs name (List.mem_append_left _ hn)
    have hB := hmapB ρ fun name hn ↦ hs name (List.mem_append_right _ (List.mem_cons_of_mem _ hn))
    simp only [Instruction.parseBasic, Except.bind_eq_ok, Except.mapError_eq_ok,
      Grammar.parseComma_iff, Grammar.parseEnd_iff, pure, Except.pure]
    refine ⟨(a.map ρ, .ok .comma :: (tsB.map (Token.map ρ)).map .ok), ?_, b'.map ρ,
      ⟨_, rfl, (b'.map ρ, []), ?_, (), rfl, rfl⟩, rfl⟩
    · rw [List.map_append, List.map_append]
      exact hA _
    · rw [← hB [], List.append_nil]

theorem parseExtended_map {number : Fin 64} {i : Instruction String}
    (h : Instruction.parseExtended number lexemes = .ok i) :
    Renames (Instruction.parseExtended number) lexemes i.labels fun ρ ↦ i.map ρ := by
  simp only [Instruction.parseExtended, Except.bind_eq_ok, Except.mapError_eq_ok,
    Grammar.parseEnd_iff, pure, Except.pure] at h
  obtain ⟨⟨a, _⟩, hread, _, rfl, hi⟩ := h
  obtain rfl := Except.ok.inj hi
  obtain ⟨ts, rfl, hlabels, hmap⟩ := operand_parse hread
  refine ⟨ts, List.append_nil _, ?_, ?_⟩
  · rw [hlabels, Instruction.labels_extended]
  · intro ρ hs
    simp only [Instruction.parseExtended, Except.bind_eq_ok, Except.mapError_eq_ok,
      Grammar.parseEnd_iff, pure, Except.pure]
    refine ⟨(a.map ρ, []), ?_, (), rfl, rfl⟩
    rw [← hmap ρ hs [], List.append_nil]

/-- A statement is read from the renamed tokens, and its labels are the identifiers that are not
reserved. -/
theorem statement_parse {command : String} {statement : Statement String}
    (h : Statement.parse command lexemes = .ok statement) :
    Renames (Statement.parse command) lexemes statement.labels fun ρ ↦ statement.map ρ := by
  unfold Statement.parse at h ⊢
  split
  · next hdat =>
    rw [if_pos hdat] at h
    obtain ⟨items, hread, rfl⟩ := Except.map_eq_ok.mp h
    have hitems : Renames (Item.parseFrom []) lexemes (items.filterMap Item.label?)
        fun ρ ↦ items.map (Item.map ρ) := items_parseFrom hread
    exact hitems.map Statement.data
  · next hdat =>
    rw [if_neg hdat] at h
    split at h
    · obtain ⟨i, hread, rfl⟩ := Except.map_eq_ok.mp h
      exact (parseBasic_map hread).map Statement.instruction
    · obtain ⟨i, hread, rfl⟩ := Except.map_eq_ok.mp h
      exact (parseExtended_map hread).map Statement.instruction
    · cases h

/-! ## Lines -/

/-- All names of a line that are renamed are given suitable names. -/
structure SuitsLine (ρ : String → String) (line : Line) : Prop where
  reserved : ∀ name, Grammar.isReserved name → ρ name = name
  marks : ∀ name ∈ line.marks, Suits ρ name
  labels : ∀ statement, line.body = .ok (some statement) →
    ∀ name ∈ statement.labels, Suits ρ name

/-- A renaming may leave a reserved name alone. -/
theorem suits_of_reserved {name : String} (h : Grammar.isReserved name) (hρ : ρ name = name) :
    Suits ρ name where
  identifier hname := by rwa [hρ]
  free hfree := by cases h.symm.trans hfree
  reserved _ := hρ

/-- A line is read from the renamed tokens, with its marks and labels renamed. -/
theorem line_parseFrom {before : List String} {statement? : Option (Statement String)}
    (h : (Line.parseFrom before lexemes).body = .ok statement?) :
    ∃ ts : List Token, lexemes = ts.map .ok ∧ ∀ ρ, SuitsLine ρ (Line.parseFrom before lexemes) →
      Suited ρ .start ts ∧ Line.parseFrom (before.map ρ) ((tokens ρ .start ts).map .ok) =
        (Line.parseFrom before lexemes).map ρ := by
  fun_induction Line.parseFrom before lexemes with
  | case1 before =>
      refine ⟨[], rfl, fun ρ _ ↦ ⟨trivial, ?_⟩⟩
      show Line.mk (before.map ρ).reverse (.ok none) = _
      rw [← List.map_reverse]
      rfl
  | case2 before name rest ih =>
      obtain ⟨ts, hts, hmap⟩ := ih h
      obtain ⟨marks, -, hmarks, -⟩ := Grammar.line_of_parseFrom h
      refine ⟨.colon :: .ident name :: ts, by rw [hts]; rfl, ?_⟩
      intro ρ hs
      obtain ⟨hsuited, hline⟩ := hmap ρ hs
      have hname : Suits ρ name := by
        apply hs.marks
        rw [hmarks, List.reverse_cons]
        exact List.mem_append_left _ (List.mem_append_right _ (List.mem_singleton_self name))
      refine ⟨⟨fun hr ↦ absurd hr Bool.false_ne_true, ⟨?_, hsuited⟩⟩, hline⟩
      rintro - name' heq
      rwa [← Token.ident.inj heq]
  | case3 => cases h
  | case4 before command rest =>
      obtain ⟨statement, hread, hsome⟩ := Except.map_eq_ok.mp h
      obtain ⟨ts, hts, hlabels, hmap⟩ := statement_parse hread
      refine ⟨.ident command :: ts, by rw [hts]; rfl, ?_⟩
      intro ρ hs
      have hnames : ∀ name, .ident name ∈ ts → Suits ρ name := by
        intro name hn
        cases hr : Grammar.isReserved name with
        | true => exact suits_of_reserved hr (hs.reserved name hr)
        | false =>
            apply hs.labels statement (congrArg (Except.map some) hread)
            rw [← hlabels]
            exact mem_labels hn hr
      refine ⟨⟨fun hr ↦ absurd hr Bool.false_ne_true, (suited_operands ρ).mpr hnames⟩, ?_⟩
      show Line.mk (before.map ρ).reverse
        ((Statement.parse command ((tokens ρ .operands ts).map .ok)).map some) = _
      rw [tokens_operands, hmap ρ hnames, hread, ← List.map_reverse]
      rfl
  | case5 => cases h

/-- A line that can be read is read after a renaming too, with its labels renamed. -/
theorem ofString_spell {text : String} {statement? : Option (Statement String)}
    (h : (Line.ofString text).body = .ok statement?) (hs : SuitsLine ρ (Line.ofString text)) :
    Line.ofString (spell ρ text) = (Line.ofString text).map ρ ∧
      Respelled text.toList (chars ρ .start text.toList) := by
  obtain ⟨ts, hts, hmap⟩ := line_parseFrom h
  obtain ⟨marks, ts', -, hgrammar, hts'⟩ := Grammar.line_of_parseFrom h
  obtain rfl : ts' = ts :=
    List.map_injective_iff.mpr (fun _ _ ↦ Except.ok.inj) (hts'.symm.trans hts)
  obtain ⟨hsuited, hline⟩ := hmap ρ hs
  have hreads := Token.scan_eq_iff.mp hts
  refine ⟨?_, respelled_chars hreads hsuited⟩
  have hscan := Token.scan_eq_iff.mpr (reads_chars hreads (separated_line hgrammar) hsuited)
  show Line.parseFrom [] (Token.scan (String.ofList _).toList) = _
  rw [String.toList_ofList, hscan]
  exact hline

end Renaming

end Dcpu16
