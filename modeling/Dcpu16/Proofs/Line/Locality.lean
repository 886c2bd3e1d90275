import Dcpu16.Proofs.Line.Labels
import Dcpu16.Proofs.Relabel
import Mathlib.Data.Set.Defs

/-!
# Where a line goes wrong

A reader looks at one token after the other, and what it has seen settles what it says or it still
waits for more.  It waits if a wrong spelling that comes next would be what is wrong with the line.
So there is a place at which a line goes wrong, without any need to speak of places in the readers
themselves: it is behind the shortest beginning that settles it.

`Ends` says this of readers that go up to the end of the line and `Reaches` of those that leave a
rest to others.  Both also say that the labels mentioned are among what was seen.  Main statement:
`Line.ends_outcome`.
-/

namespace Dcpu16

/-- All names among the tokens that were seen are in a set. -/
def Covers (names : Set String) (seen : List Lexeme) : Prop :=
  ∀ name, .ok (.ident name) ∈ seen → name ∈ names

theorem Covers.mono {names : Set String} {seen left : List Lexeme} (h : Covers names seen)
    (hl : left ⊆ seen) : Covers names left := fun name hn ↦ h name (hl hn)

theorem Covers.tail {names : Set String} {lexeme : Lexeme} {seen : List Lexeme}
    (h : Covers names (lexeme :: seen)) : Covers names seen := h.mono (List.subset_cons_self _ _)

section Readers

variable {α β : Type}

/-- What a reader that goes up to the end of the line makes of what it has seen. -/
inductive Ends (reader : List Lexeme → Except Fault α) (names : Set String) (seen : List Lexeme) :
    Prop
  /-- Whatever follows, it fails in the same way. -/
  | fails (fault : Fault) : (∀ name ∈ fault.mentioned, name ∈ names) →
      (∀ tail, reader (seen ++ tail) = .error fault) → Ends reader names seen
  /-- It waits for what follows. -/
  | waits : (∀ fault, reader seen = .error fault → ∀ name ∈ fault.mentioned, name ∈ names) →
      (∀ x tail, ∃ mentioned, reader (seen ++ .error x :: tail) = .error ⟨.lexical x, mentioned⟩) →
      Ends reader names seen

/-- What a reader that may leave a rest makes of what it has seen. -/
inductive Reaches (reader : List Lexeme → Except Fault (α × List Lexeme)) (labels : α → List String)
    (names : Set String) (seen : List Lexeme) : Prop
  /-- It is ready and leaves a rest. -/
  | ready (value : α) (left : List Lexeme) : left ⊆ seen → (∀ name ∈ labels value, name ∈ names) →
      (∀ tail, reader (seen ++ tail) = .ok (value, left ++ tail)) →
      Reaches reader labels names seen
  /-- Whatever follows, it fails in the same way. -/
  | fails (fault : Fault) : (∀ name ∈ fault.mentioned, name ∈ names) →
      (∀ tail, reader (seen ++ tail) = .error fault) → Reaches reader labels names seen
  /-- It waits for what follows, and cannot do without. -/
  | waits (fault : Fault) : (∀ name ∈ fault.mentioned, name ∈ names) → reader seen = .error fault →
      (∀ x tail, ∃ mentioned, reader (seen ++ .error x :: tail) = .error ⟨.lexical x, mentioned⟩) →
      Reaches reader labels names seen

theorem Ends.map {reader : List Lexeme → Except Fault α} {names : Set String} {seen : List Lexeme}
    (h : Ends reader names seen) (f : α → β) :
    Ends (fun lexemes ↦ (reader lexemes).map f) names seen := by
  have herror : ∀ {x : Except Fault α} {fault : Fault},
      x.map f = .error fault ↔ x = .error fault := by
    intro x fault
    cases x <;> simp [Except.map]
  cases h with
  | fails fault hn h => exact .fails fault hn fun tail ↦ herror.mpr (h tail)
  | waits hend h =>
      refine .waits (fun fault hf ↦ hend fault (herror.mp hf)) fun x tail ↦ ?_
      obtain ⟨mentioned, hx⟩ := h x tail
      exact ⟨mentioned, herror.mpr hx⟩

/-- A reader whose value is changed afterwards. -/
theorem Ends.bind_pure {reader : List Lexeme → Except Fault α} {names : Set String}
    {seen : List Lexeme} (h : Ends reader names seen) (f : α → β) :
    Ends (fun lexemes ↦ reader lexemes >>= fun value ↦ pure (f value)) names seen := by
  have hmap : (fun lexemes ↦ reader lexemes >>= fun value ↦ pure (f value)) =
      fun lexemes ↦ (reader lexemes).map f := by
    funext lexemes
    cases reader lexemes <;> rfl
  exact hmap ▸ h.map f

/-- Labels that come before what a reader sees are mentioned before its own. -/
theorem Ends.after {reader : List Lexeme → Except Fault α} {names : Set String}
    {seen : List Lexeme} (h : Ends reader names seen) {labels : List String}
    (hl : ∀ name ∈ labels, name ∈ names) :
    Ends (fun lexemes ↦ (reader lexemes).mapError (Fault.after labels)) names seen := by
  have hafter : ∀ fault : Fault, (∀ name ∈ fault.mentioned, name ∈ names) →
      ∀ name ∈ (fault.after labels).mentioned, name ∈ names := by
    intro fault hf name hn
    rcases List.mem_append.mp hn with hn | hn
    · exact hl name hn
    · exact hf name hn
  cases h with
  | fails fault hn h =>
      refine .fails (fault.after labels) (hafter fault hn) fun tail ↦ ?_
      rw [h tail]
      rfl
  | waits hend h =>
      refine .waits (fun fault hf ↦ ?_) fun x tail ↦ ?_
      · cases hr : reader seen with
        | ok value => rw [hr] at hf; cases hf
        | error fault' =>
            rw [hr] at hf
            exact Except.error.inj hf ▸ hafter fault' (hend fault' hr)
      · obtain ⟨mentioned, hx⟩ := h x tail
        exact ⟨labels ++ mentioned, by rw [hx]; rfl⟩

/-- A reader that goes on with what another one leaves. -/
theorem Reaches.bind {reader : List Lexeme → Except Fault (α × List Lexeme)}
    {labels : α → List String} {names : Set String} {seen : List Lexeme}
    (h : Reaches reader labels names seen) {next : α × List Lexeme → Except Fault β}
    (hnext : ∀ value left, left ⊆ seen → (∀ name ∈ labels value, name ∈ names) →
      Ends (fun lexemes ↦ next (value, lexemes)) names left) :
    Ends (fun lexemes ↦ reader lexemes >>= next) names seen := by
  have hok : ∀ {lexemes : List Lexeme} {result : α × List Lexeme},
      reader lexemes = .ok result → (reader lexemes >>= next) = next result := by
    intro lexemes result hr
    rw [hr]
    rfl
  have herror : ∀ {lexemes : List Lexeme} {fault : Fault},
      reader lexemes = .error fault → (reader lexemes >>= next) = .error fault := by
    intro lexemes fault hr
    rw [hr]
    rfl
  cases h with
  | ready value left hl hv h =>
      have hself := hok (h [])
      rw [List.append_nil, List.append_nil] at hself
      cases hnext value left hl hv with
      | fails fault hn hf => exact .fails fault hn fun tail ↦ (hok (h tail)).trans (hf tail)
      | waits hend hw =>
          refine .waits (fun fault hf ↦ hend fault (hself.symm.trans hf)) fun x tail ↦ ?_
          obtain ⟨mentioned, hx⟩ := hw x tail
          exact ⟨mentioned, (hok (h _)).trans hx⟩
  | fails fault hn h => exact .fails fault hn fun tail ↦ herror (h tail)
  | waits fault hn hself h =>
      refine .waits (fun fault' hf ↦ ?_) fun x tail ↦ ?_
      · exact Except.error.inj ((herror hself).symm.trans hf) ▸ hn
      · obtain ⟨mentioned, hx⟩ := h x tail
        exact ⟨mentioned, herror hx⟩

/-- A reader that has used up a beginning and now does what another one does. -/
theorem Reaches.skip {reader reader' : List Lexeme → Except Fault (α × List Lexeme)}
    {labels : α → List String} {names : Set String} {seen seen' : List Lexeme}
    (h : Reaches reader' labels names seen') (hl : seen' ⊆ seen)
    (heq : ∀ tail, reader (seen ++ tail) = reader' (seen' ++ tail)) :
    Reaches reader labels names seen := by
  have hself : reader seen = reader' seen' := by
    have := heq []
    rwa [List.append_nil, List.append_nil] at this
  cases h with
  | ready value left hleft hv h =>
      exact .ready value left (List.Subset.trans hleft hl) hv fun tail ↦ (heq tail).trans (h tail)
  | fails fault hn h => exact .fails fault hn fun tail ↦ (heq tail).trans (h tail)
  | waits fault hn hend h =>
      refine .waits fault hn (hself.trans hend) fun x tail ↦ ?_
      obtain ⟨mentioned, hx⟩ := h x tail
      exact ⟨mentioned, (heq _).trans hx⟩

/-- A reader that does what another one does on a part of the tokens goes wrong where that one does.
-/
theorem Ends.skip {reader reader' : List Lexeme → Except Fault α} {names : Set String}
    {seen seen' : List Lexeme} (h : Ends reader' names seen')
    (heq : ∀ tail, reader (seen ++ tail) = reader' (seen' ++ tail)) : Ends reader names seen := by
  have hself : reader seen = reader' seen' := by
    have := heq []
    rwa [List.append_nil, List.append_nil] at this
  cases h with
  | fails fault hn h => exact .fails fault hn fun tail ↦ (heq tail).trans (h tail)
  | waits hend h =>
      refine .waits (fun fault hf ↦ hend fault (hself.symm.trans hf)) fun x tail ↦ ?_
      obtain ⟨mentioned, hx⟩ := h x tail
      exact ⟨mentioned, (heq _).trans hx⟩

end Readers

namespace Fault

@[simp] theorem mentioned_unexpected (expected : List Token.Kind) (lexemes : List Lexeme) :
    (unexpected expected lexemes).mentioned = [] := by
  unfold unexpected
  split <;> rfl

theorem names_unexpected {labels : List String} {names : Set String}
    (h : ∀ name ∈ labels, name ∈ names) (expected : List Token.Kind) (lexemes : List Lexeme) :
    ∀ name ∈ ((unexpected expected lexemes).after labels).mentioned, name ∈ names := by
  rw [after, mentioned_unexpected, List.append_nil]
  exact h

/-- What is wrong about a token does not depend on what follows it. -/
theorem unexpected_append (expected : List Token.Kind) (lexeme : Lexeme)
    (lexemes tail : List Lexeme) :
    unexpected expected (lexeme :: lexemes ++ tail) = unexpected expected (lexeme :: lexemes) := by
  cases lexeme <;> rfl

end Fault

/-! ## Operands -/

namespace BracketSum

/-- The label of a sum is one of its terms. -/
theorem names_addTerm {sum sum' : BracketSum} {token : Token} {names : Set String}
    (h : sum.addTerm token = .ok sum') (hsum : ∀ name ∈ sum.label?.toList, name ∈ names)
    (ht : ∀ name, token = .ident name → name ∈ names) :
    ∀ name ∈ sum'.label?.toList, name ∈ names := by
  intro name hn
  rw [label?_addTerm h] at hn
  rcases List.mem_append.mp hn with hl | hl
  · exact hsum name hl
  · exact ht name (Token.eq_ident_of_label? (Option.mem_toList.mp hl))

/-- A sum is settled by its own tokens, up to its first fault or its closing bracket. -/
theorem reaches {sum : BracketSum} {names : Set String} {seen : List Lexeme}
    (hs : Covers names seen) (hsum : ∀ name ∈ sum.label?.toList, name ∈ names) :
    Reaches sum.parse (fun operand ↦ operand.label?.toList) names seen := by
  fun_induction BracketSum.parse sum seen with
  | case1 sum token rest cause hadd =>
      exact .fails ⟨cause, sum.label?.toList⟩ hsum fun tail ↦ by simp [parse, hadd]
  | case2 sum token sum₁ hadd rest ih =>
      have hsum₁ := names_addTerm hadd hsum fun name h ↦ hs name (h ▸ List.mem_cons_self)
      refine (ih hs.tail.tail hsum₁).skip ?_ fun tail ↦ by simp [parse, hadd]
      exact fun x hx ↦ List.mem_cons_of_mem _ (List.mem_cons_of_mem _ hx)
  | case3 sum token sum₁ hadd rest =>
      have hsum₁ := names_addTerm hadd hsum fun name h ↦ hs name (h ▸ List.mem_cons_self)
      refine .ready sum₁.operand rest ?_ ?_ fun tail ↦ by simp [parse, hadd]
      · exact fun x hx ↦ List.mem_cons_of_mem _ (List.mem_cons_of_mem _ hx)
      · exact fun name hn ↦ hsum₁ name (label?_operand sum₁ ▸ hn)
  | case4 sum token sum₁ hadd rest hplus hclose =>
      have hsum₁ := names_addTerm hadd hsum fun name h ↦ hs name (h ▸ List.mem_cons_self)
      rcases rest with _ | ⟨next, rest⟩
      · refine .waits ((Fault.unexpected [.plus, .closeBracket] []).after sum₁.label?.toList)
          (Fault.names_unexpected hsum₁ _ _) (by simp [parse, hadd]) fun x tail ↦ ?_
        exact ⟨sum₁.label?.toList, by simp [parse, hadd, Fault.unexpected, Fault.after]⟩
      · refine .fails ((Fault.unexpected [.plus, .closeBracket] (next :: rest)).after
          sum₁.label?.toList) (Fault.names_unexpected hsum₁ _ _) fun tail ↦ ?_
        rw [← Fault.unexpected_append _ next rest tail, List.cons_append, parse, hadd]
        simp only
        split
        · next h => exact (hplus rest (by rw [(List.cons.inj h).1])).elim
        · next h => exact (hclose rest (by rw [(List.cons.inj h).1])).elim
        · rfl
  | case5 sum seen hnot =>
      rcases seen with _ | ⟨e | token, rest⟩
      · refine .waits ((Fault.unexpected [.number, .char, .ident] []).after sum.label?.toList)
          (Fault.names_unexpected hsum _ _) (by simp [parse]) fun x tail ↦ ?_
        exact ⟨sum.label?.toList, by simp [parse, Fault.unexpected, Fault.after]⟩
      · refine .fails ((Fault.unexpected [.number, .char, .ident] (.error e :: rest)).after
          sum.label?.toList) (Fault.names_unexpected hsum _ _) fun tail ↦ ?_
        simp [parse, Fault.unexpected]
      · exact (hnot token rest rfl).elim

end BracketSum

/-- An operand is settled by its own tokens. -/
theorem Operand.reaches {names : Set String} {seen : List Lexeme} (hs : Covers names seen) :
    Reaches Operand.parse (fun operand ↦ operand.label?.toList) names seen := by
  have hfails : ∀ lexeme rest, seen = lexeme :: rest →
      (∀ tail, Operand.parse (seen ++ tail) = .error
        (.unexpected [.number, .char, .ident, .openBracket] (seen ++ tail))) →
      Reaches Operand.parse (fun operand ↦ operand.label?.toList) names seen := by
    rintro lexeme rest rfl h
    refine .fails (.unexpected [.number, .char, .ident, .openBracket] (lexeme :: rest)) ?_ ?_
    · simp
    · exact fun tail ↦ (h tail).trans (by rw [Fault.unexpected_append])
  rcases seen with _ | ⟨e | token, rest⟩
  · exact .waits (.unexpected [.number, .char, .ident, .openBracket] []) (by simp) rfl
      fun x tail ↦ ⟨[], rfl⟩
  · exact hfails _ _ rfl fun tail ↦ rfl
  · cases token with
    | number w => exact .ready _ rest (List.subset_cons_self _ _) (by simp) fun tail ↦ rfl
    | char w => exact .ready _ rest (List.subset_cons_self _ _) (by simp) fun tail ↦ rfl
    | ident name =>
        refine .ready _ rest (List.subset_cons_self _ _) (fun label hl ↦ ?_) fun tail ↦ rfl
        rw [Operand.label?_ofName, Option.mem_toList] at hl
        exact hs label (Token.eq_ident_of_label? hl ▸ List.mem_cons_self)
    | openBracket =>
        exact (BracketSum.reaches hs.tail (by simp)).skip (List.subset_cons_self _ _) fun tail ↦ rfl
    | _ => exact hfails _ _ rfl fun tail ↦ rfl

/-! ## Data -/

theorem Item.ends {found : List (Item String)} {names : Set String} {seen : List Lexeme}
    (hs : Covers names seen)
    (hfound : ∀ name ∈ found.reverse.filterMap Item.label?, name ∈ names) :
    Ends (Item.parseFrom found) names seen := by
  have hcons : ∀ {token : Token} {rest : List Lexeme} {item : Item String}
      {found : List (Item String)}, Covers names (.ok token :: rest) →
      Item.ofToken? token = some item →
      (∀ name ∈ found.reverse.filterMap Item.label?, name ∈ names) →
      ∀ name ∈ (item :: found).reverse.filterMap Item.label?, name ∈ names := by
    intro token rest item found hs hitem hfound name hn
    rw [List.reverse_cons, List.filterMap_append] at hn
    rcases List.mem_append.mp hn with hn | hn
    · exact hfound name hn
    · obtain ⟨item', hi, hl⟩ := List.mem_filterMap.mp hn
      rw [List.mem_singleton.mp hi, Item.label?_ofToken? hitem] at hl
      exact hs name (Token.eq_ident_of_label? hl ▸ List.mem_cons_self)
  fun_induction Item.parseFrom found seen with
  | case1 found =>
      refine .waits (fun fault h ↦ ?_) fun x tail ↦ ⟨_, rfl⟩
      cases h
  | case2 found e rest => exact .fails _ hfound fun tail ↦ rfl
  | case3 found token rest hitem =>
      exact .fails ⟨.nonConstantData, _⟩ hfound fun tail ↦ by simp [Item.parseFrom, hitem]
  | case4 found token item hitem =>
      refine .waits (fun fault h ↦ ?_) fun x tail ↦ ?_
      · simp [Item.parseFrom, hitem] at h
      · exact ⟨(item :: found).reverse.filterMap Item.label?,
          by simp [Item.parseFrom, hitem, Fault.unexpected, Fault.after]⟩
  | case5 found token item hitem rest ih =>
      refine (ih hs.tail.tail (hcons hs hitem hfound)).skip fun tail ↦ ?_
      simp [Item.parseFrom, hitem]
  | case6 found token item hitem rest hnil hcomma =>
      rcases rest with _ | ⟨next, rest⟩
      · exact (hnil rfl).elim
      · refine .fails ((Fault.unexpected [.comma, .eol] (next :: rest)).after
          ((item :: found).reverse.filterMap Item.label?))
          (Fault.names_unexpected (hcons hs hitem hfound) _ _) fun tail ↦ ?_
        rw [← Fault.unexpected_append _ next rest tail, List.cons_append, Item.parseFrom, hitem]
        simp only
        split
        · next h => cases h
        · next h => exact (hcomma rest (by rw [(List.cons.inj h).1])).elim
        · rfl

/-! ## Statements -/

theorem Line.ends_parseEnd (names : Set String) (seen : List Lexeme) :
    Ends Line.parseEnd names seen := by
  cases seen with
  | nil =>
      refine .waits (fun fault h ↦ ?_) fun x tail ↦ ⟨[], rfl⟩
      cases h
  | cons lexeme rest =>
      refine .fails (.unexpected [.eol] (lexeme :: rest)) (by simp) fun tail ↦ ?_
      rw [← Fault.unexpected_append]
      rfl

theorem Line.ends_parseComma {α : Type} {names : Set String} {seen : List Lexeme}
    {next : List Lexeme → Except Fault α} (hnext : ∀ left, left ⊆ seen → Ends next names left) :
    Ends (fun lexemes ↦ Line.parseComma lexemes >>= next) names seen := by
  rcases seen with _ | ⟨e | token, rest⟩
  · refine .waits (fun fault h ↦ ?_) fun x tail ↦ ⟨[], rfl⟩
    rw [← Except.error.inj h]
    simp
  · exact .fails { cause := .lexical e } (by simp) fun tail ↦ rfl
  · cases token with
    | comma => exact (hnext rest (List.subset_cons_self _ _)).skip fun tail ↦ rfl
    | _ => exact .fails (.unexpected [.comma] [.ok _]) (by simp) fun tail ↦ rfl

theorem Instruction.ends_parseBasic (op : BasicOp) {names : Set String} {seen : List Lexeme}
    (hs : Covers names seen) : Ends (Instruction.parseBasic op) names seen := by
  refine (Operand.reaches hs).bind fun a left hl ha ↦ ?_
  refine ((Line.ends_parseComma fun left' hl' ↦ ?_).after ha).bind_pure _
  refine (Operand.reaches (hs.mono (List.Subset.trans hl' hl))).bind fun b left'' _ hb ↦ ?_
  exact ((Line.ends_parseEnd names left'').after hb).bind_pure _

theorem Instruction.ends_parseExtended (number : Fin 64) {names : Set String} {seen : List Lexeme}
    (hs : Covers names seen) : Ends (Instruction.parseExtended number) names seen := by
  refine (Operand.reaches hs).bind fun a left _ ha ↦ ?_
  exact ((Line.ends_parseEnd names left).after ha).bind_pure _

/-- A statement goes wrong where its operands do, or with its command. -/
theorem Statement.ends (command : String) {names : Set String} {seen : List Lexeme}
    (hs : Covers names seen) : Ends (Statement.parse command) names seen := by
  unfold Statement.parse
  by_cases hc : command.toLower = "dat"
  · simp only [if_pos hc]
    exact (Item.ends hs (by simp)).map _
  · simp only [if_neg hc]
    rcases OpCode.ofName? command with _ | op | number
    · exact .fails { cause := .unknownCommand command.toLower } (by simp) fun tail ↦ rfl
    · exact (Instruction.ends_parseBasic op hs).map _
    · exact (Instruction.ends_parseExtended number hs).map _

/-! ## Lines -/

namespace Line

/-- The labels that stand with their colons at the beginning of a line. -/
def definitions : List Lexeme → List String
  | .ok .colon :: .ok (.ident name) :: rest => name :: definitions rest
  | _ => []

/-- The labels that a line defines are those at its beginning, whatever is wrong with the rest. -/
theorem marks_parseFrom (before : List String) (lexemes : List Lexeme) :
    (parseFrom before lexemes).marks = before.reverse ++ definitions lexemes := by
  fun_induction parseFrom before lexemes with
  | case1 before => simp [definitions]
  | case2 before name rest ih => rw [ih, definitions, List.reverse_cons, List.append_assoc]; rfl
  | case3 before rest hnot =>
      have hnone : definitions (.ok .colon :: rest) = [] := by
        unfold definitions
        split
        · next h => exact (hnot _ _ (List.cons.inj h).2).elim
        · rfl
      simp [hnone]
  | case4 before command rest => simp [definitions]
  | case5 before rest hnil hmark hcolon hident =>
      have hnone : definitions rest = [] := by
        unfold definitions
        split
        · exact (hmark _ _ rfl).elim
        · rfl
      simp [hnone]

theorem mem_of_mem_definitions {lexemes : List Lexeme} {name : String}
    (h : name ∈ definitions lexemes) : .ok (.ident name) ∈ lexemes := by
  fun_induction definitions lexemes with
  | case1 name' rest ih =>
      rcases List.mem_cons.mp h with rfl | h
      · exact List.mem_cons_of_mem _ List.mem_cons_self
      · exact List.mem_cons_of_mem _ (List.mem_cons_of_mem _ (ih h))
  | case2 => exact absurd h List.not_mem_nil

/-- Further tokens take no definition away. -/
theorem definitions_prefix (seen tail : List Lexeme) :
    definitions seen <+: definitions (seen ++ tail) := by
  fun_induction definitions seen with
  | case1 name rest ih => exact (List.cons_prefix_cons).mpr ⟨rfl, ih⟩
  | case2 => exact List.nil_prefix

/-- No label is defined at a wrong spelling or behind it. -/
theorem definitions_append_error (seen : List Lexeme) (x : LexError) (tail : List Lexeme) :
    definitions (seen ++ .error x :: tail) = definitions seen := by
  fun_induction definitions seen with
  | case1 name rest ih => exact congrArg (name :: ·) ih
  | case2 seen hnot =>
      have hnone : ∀ name rest,
          seen ++ .error x :: tail ≠ .ok .colon :: .ok (.ident name) :: rest := by
        intro name rest h
        rcases seen with _ | ⟨l, _ | ⟨l', left⟩⟩
        · cases h
        · cases h
        · injection h with hl h
          injection h with hl' h
          exact hnot name left (by rw [hl, hl'])
      unfold definitions
      split
      · next h => exact (hnone _ _ h).elim
      · rfl

/-- What a line says where the labels in front of it count as mentioned. -/
def outcome (before : List String) (lexemes : List Lexeme) :
    Except Fault (Option (Statement String)) :=
  (parseFrom before lexemes).body.mapError (Fault.after (parseFrom before lexemes).marks)

/-- A line goes wrong at one place, and mentions nothing that is not in front of it. -/
theorem ends_outcome {before : List String} {names : Set String} {seen : List Lexeme}
    (hs : Covers names seen) (hb : ∀ name ∈ before.reverse, name ∈ names) :
    Ends (outcome before) names seen := by
  fun_induction parseFrom before seen with
  | case1 before =>
      refine .waits (fun fault h ↦ ?_) fun x tail ↦ ⟨_, rfl⟩
      cases h
  | case2 before name rest ih =>
      have hname : name ∈ names := hs name (List.mem_cons_of_mem _ List.mem_cons_self)
      refine (ih hs.tail.tail fun x hx ↦ ?_).skip fun tail ↦ rfl
      rw [List.reverse_cons] at hx
      rcases List.mem_append.mp hx with hx | hx
      · exact hb x hx
      · exact List.mem_singleton.mp hx ▸ hname
  | case3 before rest hnot =>
      rcases rest with _ | ⟨e | token, rest⟩
      · refine .waits (fun fault h ↦ ?_) fun x tail ↦ ⟨_, rfl⟩
        rw [← Except.error.inj h]
        exact Fault.names_unexpected hb _ _
      · exact .fails _ (Fault.names_unexpected hb [.ident] [.error e]) fun tail ↦ rfl
      · cases token with
        | ident name => exact (hnot name rest rfl).elim
        | _ => exact .fails _ (Fault.names_unexpected hb [.ident] [.ok _]) fun tail ↦ rfl
  | case4 before command rest =>
      exact (((Statement.ends command hs.tail).map some).after hb).skip fun tail ↦ rfl
  | case5 before seen hnil hmark hcolon hident =>
      rcases seen with _ | ⟨e | token, rest⟩
      · exact (hnil rfl).elim
      · exact .fails _ (Fault.names_unexpected hb [.ident, .eol] [.error e]) fun tail ↦ rfl
      · cases token with
        | colon => exact (hcolon rest rfl).elim
        | ident name => exact (hident name rest rfl).elim
        | _ => exact .fails _ (Fault.names_unexpected hb [.ident, .eol] [.ok _]) fun tail ↦ rfl

end Line

end Dcpu16
