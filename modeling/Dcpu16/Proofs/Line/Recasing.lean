import Dcpu16.Proofs.Line.Renaming

/-!
# Lines with keywords in other cases

The letters of a command and of the names of registers and special operands can be written in any
case, each of them and at each place for itself; those of labels cannot.  `Recasing.Recased` says
this of the text of a line.  A text that is so changed has the same tokens up to the case of
keywords (`Recasing.reads_of_recased`), and a reader that succeeds on tokens reads the same from
tokens that are alike.  Main statement: `Recasing.ofString_of_recased`, by which a line that can be
read is read as before.
-/

namespace Dcpu16

namespace Renaming

/-- Whether an identifier at a place is a keyword: the command is, and behind it the names of
registers and special operands are. -/
def Place.isKeyword : Place → String → Bool
  | .start, _ => true
  | .mark, _ => false
  | .operands, name => Grammar.isReserved name

end Renaming

namespace Recasing

open Renaming (Place Separated)

/-- The text of a line from a place on, with letters of keywords in another case. -/
inductive Recased : Place → List Char → List Char → Prop
  | rest (place : Place) (cs : List Char) : Recased place cs cs
  | token {place : Place} {t : Token} {used rest rest' : List Char} :
      Token.read (used ++ rest) = (.ok (some t), rest) → Recased (place.next t) rest rest' →
      Recased place (used ++ rest) (used ++ rest')
  | keyword {place : Place} {name name' : String} {blanks rest rest' : List Char} :
      (∀ b ∈ blanks, Text.isBlank b) →
      Token.read (blanks ++ (name.toList ++ rest)) = (.ok (some (.ident name)), rest) →
      place.isKeyword name → name'.toLower = name.toLower →
      Recased (place.next (.ident name)) rest rest' →
      Recased place (blanks ++ (name.toList ++ rest)) (blanks ++ (name'.toList ++ rest'))

/-- Tokens from a place on, with letters of keywords in another case. -/
inductive Alike : Place → List Token → List Token → Prop
  | nil (place : Place) : Alike place [] []
  | token {place : Place} (t : Token) {ts ts' : List Token} :
      Alike (place.next t) ts ts' → Alike place (t :: ts) (t :: ts')
  | keyword {place : Place} {name name' : String} {ts ts' : List Token} :
      place.isKeyword name → name'.toLower = name.toLower →
      Alike (place.next (.ident name)) ts ts' →
      Alike place (.ident name :: ts) (.ident name' :: ts')

/-! ## Letters -/

/-- A letter has a letter in the other case, and everything else is left alone. -/
theorem toLower_cases (c : Char) : c.toLower = c ∨ c.isAlpha ∧ c.toLower.isAlpha := by
  by_cases h : c.val ≥ 'A'.val ∧ c.val ≤ 'Z'.val
  · have hupper : c.isUpper := decide_eq_true h
    have hval : c.toLower.val = c.val + 32 := congrArg Char.val (dif_pos h)
    have hlower : c.toLower.isLower := by
      have hbounds : 65 ≤ c.val.toNat ∧ c.val.toNat ≤ 90 := h
      have hnat : c.toLower.val.toNat = c.val.toNat + 32 := by
        rw [hval, UInt32.toNat_add]
        exact Nat.mod_eq_of_lt (show c.val.toNat + 32 < _ by omega)
      refine Bool.and_eq_true_iff.mpr ⟨decide_eq_true ?_, decide_eq_true ?_⟩
      · exact UInt32.le_iff_toNat_le.mpr (show 97 ≤ _ by omega)
      · exact UInt32.le_iff_toNat_le.mpr (show _ ≤ 122 by omega)
    exact .inr ⟨Bool.or_eq_true_iff.mpr (.inl hupper), Bool.or_eq_true_iff.mpr (.inr hlower)⟩
  · exact .inl (dif_neg h)

theorem isIdentStart_toLower (c : Char) : Token.isIdentStart c.toLower = Token.isIdentStart c := by
  rcases toLower_cases c with h | ⟨h, h'⟩
  · rw [h]
  · rw [Token.isIdentStart, Token.isIdentStart, h, h', Bool.or_true, Bool.or_true]

theorem isIdentRest_toLower (c : Char) : Token.isIdentRest c.toLower = Token.isIdentRest c := by
  rcases toLower_cases c with h | ⟨h, -⟩
  · rw [h]
  · rw [Token.isIdentRest, Token.isIdentRest, isIdentStart_toLower, Token.isIdentStart, h,
      Bool.or_true, Bool.true_or, Bool.true_or]

/-- What is spelled like an identifier up to case is spelled like one. -/
theorem isIdentifier_of_toLower {name name' : String} (h : name'.toLower = name.toLower)
    (hname : Token.isIdentifier name) : Token.isIdentifier name' := by
  obtain ⟨c, cs, hcs, hc, hrest⟩ := Token.isIdentifier_iff.mp hname
  have hchars : name'.toList.map Char.toLower = (c :: cs).map Char.toLower := by
    rw [← hcs, ← String.toList_map, ← String.toList_map]
    exact congrArg String.toList h
  obtain ⟨c', cs', hcs', hc', hmap⟩ := List.map_eq_cons_iff.mp hchars
  refine Token.isIdentifier_iff.mpr ⟨c', cs', hcs', ?_, ?_⟩
  · rw [← isIdentStart_toLower, hc', isIdentStart_toLower, hc]
  · intro d hd
    have hmem : d.toLower ∈ cs.map Char.toLower := hmap ▸ List.mem_map_of_mem hd
    obtain ⟨d', hd', heq⟩ := List.mem_map.mp hmem
    rw [← isIdentRest_toLower, ← heq, isIdentRest_toLower, hrest d' hd']

/-! ## Tokens -/

variable {place : Place} {cs cs' : List Char} {ts ts' : List Token}

theorem Alike.refl (place : Place) (ts : List Token) : Alike place ts ts := by
  induction ts generalizing place with
  | nil => exact .nil place
  | cons t ts ih => exact .token t (ih _)

/-- What does not start with an identifier starts as before. -/
theorem head?_of_recased (h : Recased place cs cs')
    (hcs : ∀ c ∈ cs.head?, Token.isIdentStart c = false) : cs'.head? = cs.head? := by
  cases h with
  | rest => rfl
  | @token _ t used rest rest' hread _ =>
      have hlt := Token.length_lt_of_read_eq hread
      cases used with
      | nil => exact absurd hlt (Nat.lt_irrefl _)
      | cons c used => rfl
  | @keyword _ name name' blanks rest rest' _ hread _ _ _ =>
      obtain ⟨c, body, hname, hc, -⟩ := Token.isIdentifier_iff.mp (Token.read_eq_ident hread).1
      cases blanks with
      | nil =>
          rw [hname] at hcs
          exact absurd hc (Bool.eq_false_iff.mp (hcs c rfl))
      | cons b blanks => rfl

/-- Where a token ends is the same, unless an identifier follows a number without blanks between
them. -/
theorem head?_of_isOpen {t : Token} {rest rest' : List Char}
    (hread : Token.read cs = (.ok (some t), rest)) (hreads : Token.Reads rest ts)
    (hseparated : Separated (t :: ts)) (h : Recased (place.next t) rest rest') (hopen : t.isOpen) :
    rest'.head? = rest.head? := by
  refine head?_of_recased h ?_
  cases t with
  | number w =>
      refine Renaming.head?_of_reads hreads fun t' ht' ↦ ?_
      exact (List.isChain_cons.mp hseparated).1 t' ht' w rfl
  | ident name =>
      intro c hc
      exact Token.isIdentStart_of_not_isIdentRest ((Token.read_eq_ident hread).2.1 c hc)
  | _ => cases hopen

/-- A text with keywords in other cases has tokens with keywords in other cases. -/
theorem reads_of_recased (hreads : Token.Reads cs ts) (hseparated : Separated ts)
    (h : Recased place cs cs') : ∃ ts', Token.Reads cs' ts' ∧ Alike place ts ts' := by
  induction hreads generalizing place cs' with
  | @eol cs left hread =>
      cases h with
      | rest => exact ⟨[], .eol hread, .nil place⟩
      | token hread' _ => cases hread.symm.trans hread'
      | keyword _ hread' _ _ _ => cases hread.symm.trans hread'
  | @token cs left t ts hread hreads ih =>
      have hts := (List.isChain_cons.mp hseparated).2
      cases h with
      | rest => exact ⟨t :: ts, .token hread hreads, .refl place _⟩
      | @token _ t' used rest rest' hread' hrest =>
          obtain ⟨ht, rfl⟩ := Prod.mk.inj (hread.symm.trans hread')
          obtain rfl := Option.some.inj (Except.ok.inj ht)
          obtain ⟨ts', hreads', halike⟩ := ih hts hrest
          obtain ⟨used', -, hused, hsame⟩ := Token.read_append hread
          obtain rfl := List.append_cancel_right hused
          exact ⟨t :: ts', .token (hsame _ (head?_of_isOpen hread hreads hseparated hrest)) hreads',
            .token t halike⟩
      | @keyword _ name name' blanks rest rest' hblanks hread' hkeyword hlower hrest =>
          obtain ⟨ht, rfl⟩ := Prod.mk.inj (hread.symm.trans hread')
          obtain rfl := Option.some.inj (Except.ok.inj ht)
          obtain ⟨ts', hreads', halike⟩ := ih hts hrest
          obtain ⟨hname, hstop, -⟩ := Token.read_eq_ident hread
          have hhead := head?_of_isOpen hread hreads hseparated hrest rfl
          have hread'' := Token.read_identifier hblanks (isIdentifier_of_toLower hlower hname)
            (hhead ▸ hstop)
          exact ⟨.ident name' :: ts', .token hread'' hreads', .keyword hkeyword hlower halike⟩

/-! ## Operands -/

/-- What a keyword stands for does not depend on the case of its letters. -/
theorem ofString_of_toLower {name name' : String} (h : Grammar.isReserved name)
    (hlower : name'.toLower = name.toLower) : Name.ofString name' = Name.ofString name := by
  have hregister : Register.ofName? name' = Register.ofName? name := by
    rw [Register.ofName?, Register.ofName?, hlower]
  have hspecial : Special.ofName? name' = Special.ofName? name := by
    rw [Special.ofName?, Special.ofName?, hlower]
  have hlabel := Renaming.ofString_ne_label h
  rw [Name.ofString, hregister, hspecial]
  rw [Name.ofString] at hlabel ⊢
  cases hr : Register.ofName? name with
  | some r => rfl
  | none =>
      cases hs : Special.ofName? name with
      | some s => rfl
      | none =>
          rw [hr, hs] at hlabel
          exact absurd rfl (hlabel name)

/-- Tokens behind the command that are alike. -/
inductive AlikeToken : Lexeme → Lexeme → Prop
  | refl (l : Lexeme) : AlikeToken l l
  | keyword {name name' : String} : Grammar.isReserved name → name'.toLower = name.toLower →
      AlikeToken (.ok (.ident name)) (.ok (.ident name'))

theorem Alike.forall₂ (h : Alike .operands ts ts') :
    List.Forall₂ AlikeToken (ts.map .ok) (ts'.map .ok) := by
  generalize hplace : Place.operands = place at h
  induction h with
  | nil => exact .nil
  | token t _ ih => subst hplace; exact .cons (.refl _) (ih rfl)
  | keyword hkeyword hlower _ ih => subst hplace; exact .cons (.keyword hkeyword hlower) (ih rfl)

variable {t t' : Token} {l : Lexeme} {lexemes lexemes' left : List Lexeme}

/-- Only identifiers have letters in another case. -/
theorem AlikeToken.eq_of_kind (h : AlikeToken (.ok t) l) (ht : t.kind ≠ .ident) : l = .ok t := by
  cases h with
  | refl => rfl
  | keyword => exact absurd rfl ht

/-- A term in another case adds the same to a sum. -/
theorem AlikeToken.addTerm {sum sum' : BracketSum} (h : AlikeToken (.ok t) l)
    (hadd : sum.addTerm t = .ok sum') : ∃ t', l = .ok t' ∧ sum.addTerm t' = .ok sum' := by
  cases h with
  | refl => exact ⟨t, rfl, hadd⟩
  | @keyword name name' hreserved hlower =>
      refine ⟨.ident name', rfl, ?_⟩
      rw [BracketSum.addTerm, BracketSum.addName] at hadd ⊢
      rw [ofString_of_toLower hreserved hlower]
      cases hof : Name.ofString name with
      | register r => rwa [hof] at hadd
      | special s =>
          rw [hof] at hadd
          cases hadd
      | label l => exact absurd hof (Renaming.ofString_ne_label hreserved l)

/-- A reader of a part of the line that succeeds reads the same from tokens that are alike, and
leaves tokens that are alike. -/
def Keeps {α : Type} (reader : List Lexeme → Except Fault (α × List Lexeme)) : Prop :=
  ∀ ⦃lexemes lexemes' left : List Lexeme⦄ ⦃v : α⦄, List.Forall₂ AlikeToken lexemes lexemes' →
    reader lexemes = .ok (v, left) →
    ∃ left', reader lexemes' = .ok (v, left') ∧ List.Forall₂ AlikeToken left left'

theorem keeps_bracketSum (sum : BracketSum) : Keeps sum.parse := by
  intro lexemes lexemes' left operand h hparse
  fun_induction BracketSum.parse sum lexemes generalizing lexemes' with
  | case1 => cases hparse
  | case2 sum token sum' hadd rest ih =>
      obtain ⟨_, _, hterm, hrest, rfl⟩ := List.forall₂_cons_left_iff.mp h
      obtain ⟨_, rest', hplus, htail, rfl⟩ := List.forall₂_cons_left_iff.mp hrest
      obtain ⟨token', rfl, hadd'⟩ := hterm.addTerm hadd
      obtain rfl := hplus.eq_of_kind (by decide)
      obtain ⟨left', hread, hleft⟩ := ih htail hparse
      refine ⟨left', ?_, hleft⟩
      rw [BracketSum.parse, hadd']
      exact hread
  | case3 sum token sum' hadd rest =>
      obtain ⟨rfl, rfl⟩ := Prod.mk.inj (Except.ok.inj hparse)
      obtain ⟨_, _, hterm, hrest, rfl⟩ := List.forall₂_cons_left_iff.mp h
      obtain ⟨_, rest', hclose, htail, rfl⟩ := List.forall₂_cons_left_iff.mp hrest
      obtain ⟨token', rfl, hadd'⟩ := hterm.addTerm hadd
      obtain rfl := hclose.eq_of_kind (by decide)
      refine ⟨rest', ?_, htail⟩
      rw [BracketSum.parse, hadd']
  | case4 => cases hparse
  | case5 => cases hparse

theorem keeps_operand : Keeps Operand.parse := by
  intro lexemes lexemes' left operand h hparse
  unfold Operand.parse at hparse
  split at hparse
  · next w rest =>
    obtain ⟨rfl, rfl⟩ := Prod.mk.inj (Except.ok.inj hparse)
    obtain ⟨_, rest', hfirst, hrest, rfl⟩ := List.forall₂_cons_left_iff.mp h
    obtain rfl := hfirst.eq_of_kind Token.Kind.noConfusion
    exact ⟨rest', rfl, hrest⟩
  · next w rest =>
    obtain ⟨rfl, rfl⟩ := Prod.mk.inj (Except.ok.inj hparse)
    obtain ⟨_, rest', hfirst, hrest, rfl⟩ := List.forall₂_cons_left_iff.mp h
    obtain rfl := hfirst.eq_of_kind Token.Kind.noConfusion
    exact ⟨rest', rfl, hrest⟩
  · next name rest =>
    obtain ⟨rfl, rfl⟩ := Prod.mk.inj (Except.ok.inj hparse)
    obtain ⟨_, rest', hfirst, hrest, rfl⟩ := List.forall₂_cons_left_iff.mp h
    refine ⟨rest', ?_, hrest⟩
    cases hfirst with
    | refl => rfl
    | keyword hreserved hlower =>
        rw [Operand.parse, Operand.ofName, ofString_of_toLower hreserved hlower]
        rfl
  · next rest =>
    obtain ⟨_, rest', hfirst, hrest, rfl⟩ := List.forall₂_cons_left_iff.mp h
    obtain rfl := hfirst.eq_of_kind (by decide)
    exact keeps_bracketSum {} hrest hparse
  · cases hparse

/-! ## Statements -/

/-- An item in another case is the same item, for no item is a keyword. -/
theorem AlikeToken.ofToken? {item : Item String} (h : AlikeToken (.ok t) l)
    (hitem : Item.ofToken? t = some item) :
    ∃ t', l = .ok t' ∧ Item.ofToken? t' = some item := by
  cases h with
  | refl => exact ⟨t, rfl, hitem⟩
  | @keyword name name' hreserved hlower =>
      refine ⟨.ident name', rfl, ?_⟩
      rwa [Item.ofToken?, ofString_of_toLower hreserved hlower]

/-- A reader that goes up to the end of the line reads the same from tokens that are alike, if it
succeeds. -/
def KeepsAll {α : Type} (reader : List Lexeme → Except Fault α) : Prop :=
  ∀ ⦃lexemes lexemes' : List Lexeme⦄ ⦃v : α⦄, List.Forall₂ AlikeToken lexemes lexemes' →
    reader lexemes = .ok v → reader lexemes' = .ok v

theorem keepsAll_items (found : List (Item String)) : KeepsAll (Item.parseFrom found) := by
  intro lexemes lexemes' items h hparse
  fun_induction Item.parseFrom found lexemes generalizing lexemes' with
  | case1 found =>
      obtain rfl := List.forall₂_nil_left_iff.mp h
      exact hparse
  | case2 => cases hparse
  | case3 => cases hparse
  | case4 found token item hitem =>
      obtain ⟨_, _, hfirst, hrest, rfl⟩ := List.forall₂_cons_left_iff.mp h
      obtain rfl := List.forall₂_nil_left_iff.mp hrest
      obtain ⟨token', rfl, hitem'⟩ := hfirst.ofToken? hitem
      rw [Item.parseFrom, hitem']
      exact hparse
  | case5 found token item hitem rest ih =>
      obtain ⟨_, _, hfirst, hrest, rfl⟩ := List.forall₂_cons_left_iff.mp h
      obtain ⟨_, rest', hcomma, htail, rfl⟩ := List.forall₂_cons_left_iff.mp hrest
      obtain ⟨token', rfl, hitem'⟩ := hfirst.ofToken? hitem
      obtain rfl := hcomma.eq_of_kind (by decide)
      rw [Item.parseFrom, hitem']
      exact ih htail hparse
  | case6 => cases hparse

theorem keepsAll_basic (op : BasicOp) : KeepsAll (Instruction.parseBasic op) := by
  intro lexemes lexemes' i h hparse
  simp only [Instruction.parseBasic, Except.bind_eq_ok, Except.mapError_eq_ok,
    Grammar.parseComma_iff, Grammar.parseEnd_iff, pure, Except.pure] at hparse ⊢
  obtain ⟨⟨a, _⟩, hreadA, b, ⟨rest, rfl, ⟨b', _⟩, hreadB, _, rfl, hb⟩, hi⟩ := hparse
  obtain ⟨_, hreadA', hleft⟩ := keeps_operand h hreadA
  obtain ⟨_, rest', hcomma, hrest, rfl⟩ := List.forall₂_cons_left_iff.mp hleft
  obtain rfl := hcomma.eq_of_kind (by decide)
  obtain ⟨_, hreadB', hend⟩ := keeps_operand hrest hreadB
  obtain rfl := List.forall₂_nil_left_iff.mp hend
  exact ⟨(a, _), hreadA', b, ⟨rest', rfl, (b', []), hreadB', (), rfl, hb⟩, hi⟩

theorem keepsAll_extended (number : Fin 64) : KeepsAll (Instruction.parseExtended number) := by
  intro lexemes lexemes' i h hparse
  simp only [Instruction.parseExtended, Except.bind_eq_ok, Except.mapError_eq_ok,
    Grammar.parseEnd_iff, pure, Except.pure] at hparse ⊢
  obtain ⟨⟨a, _⟩, hread, _, rfl, hi⟩ := hparse
  obtain ⟨_, hread', hend⟩ := keeps_operand h hread
  obtain rfl := List.forall₂_nil_left_iff.mp hend
  exact ⟨(a, []), hread', (), rfl, hi⟩

theorem KeepsAll.map {α β : Type} {reader : List Lexeme → Except Fault α} (h : KeepsAll reader)
    (f : α → β) : KeepsAll fun lexemes ↦ (reader lexemes).map f := by
  intro lexemes lexemes' v halike hparse
  obtain ⟨v', hread, rfl⟩ := Except.map_eq_ok.mp hparse
  exact Except.map_eq_ok.mpr ⟨v', h halike hread, rfl⟩

/-- Statements with the same command are read alike from tokens in another case. -/
theorem keepsAll_statement (command : String) : KeepsAll (Statement.parse command) := by
  intro lexemes lexemes' statement h hparse
  unfold Statement.parse at hparse ⊢
  split
  · next hdat =>
    rw [if_pos hdat] at hparse
    exact (keepsAll_items []).map _ h hparse
  · next hdat =>
    rw [if_neg hdat] at hparse
    split at hparse
    · exact (keepsAll_basic _).map _ h hparse
    · exact (keepsAll_extended _).map _ h hparse
    · cases hparse

/-- A command is found whatever the case of its letters. -/
theorem parse_of_toLower {command command' : String} (h : command'.toLower = command.toLower) :
    Statement.parse command' = Statement.parse command := by
  funext lexemes
  rw [Statement.parse, Statement.parse, OpCode.ofName?, OpCode.ofName?, h]

/-! ## Lines -/

/-- A line that can be read is read alike with its keywords in another case, the command too. -/
theorem parseFrom_of_alike {marks before : List String} {statement? : Option (Statement String)}
    (hline : Grammar.Line marks ts) (h : Alike .start ts ts')
    (hbody : (Line.parseFrom before (ts.map .ok)).body = .ok statement?) :
    Line.parseFrom before (ts'.map .ok) = Line.parseFrom before (ts.map .ok) := by
  induction hline generalizing before ts' with
  | empty =>
      cases h
      rfl
  | @statement ts hstatement =>
      obtain ⟨command, rest, rfl⟩ : ∃ command rest, ts = .ident command :: rest := by
        cases hstatement <;> exact ⟨_, _, rfl⟩
      obtain ⟨statement, hread, -⟩ := Except.map_eq_ok.mp hbody
      have hparse : ∀ {rest' : List Token} {command' : String},
          command'.toLower = command.toLower → Alike .operands rest rest' →
          Line.parseFrom before ((.ident command' :: rest').map .ok) =
            Line.parseFrom before ((.ident command :: rest).map .ok) := by
        intro rest' command' hlower hrest
        have hread' := keepsAll_statement command hrest.forall₂ hread
        show Line.mk _ ((Statement.parse command' (rest'.map .ok)).map some) =
          Line.mk _ ((Statement.parse command (rest.map .ok)).map some)
        rw [parse_of_toLower hlower, hread', hread]
      cases h with
      | token _ hrest => exact hparse rfl hrest
      | keyword _ hlower hrest => exact hparse hlower hrest
  | mark name _ ih =>
      -- behind a colon there is no keyword, and the mark behind it is read first
      cases h with
      | token _ h =>
          cases h with
          | token _ h => exact ih h hbody
          | keyword hkeyword _ _ => cases hkeyword

/-- A line that can be read is read the same with its keywords in other cases. -/
theorem ofString_of_recased {text text' : String} {statement? : Option (Statement String)}
    (h : Recased .start text.toList text'.toList)
    (hbody : (Line.ofString text).body = .ok statement?) :
    Line.ofString text' = Line.ofString text := by
  obtain ⟨marks, ts, -, hgrammar, hts⟩ := Grammar.line_of_parseFrom hbody
  have hreads := Token.scan_eq_iff.mp hts
  obtain ⟨ts', hreads', halike⟩ :=
    reads_of_recased hreads (Renaming.separated_line hgrammar) h
  rw [Line.ofString, Line.ofLexemes, hts] at hbody
  rw [Line.ofString, Line.ofString, Token.scan_eq_iff.mpr hreads', hts]
  exact parseFrom_of_alike hgrammar halike hbody

end Recasing

end Dcpu16
